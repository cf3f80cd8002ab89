import StageScript.Main
import StageScript.Proofs.Tree.Shape
import StageScript.Proofs.Parse.Triple
import StageScript.Scope.Forest
import StageScript.Source.Cursor
import StageScript.Proofs.Parse.Ledger
import StageScript.Proofs.Parse.Making
import StageScript.Proofs.Parse.Operator
import StageScript.Proofs.Parse.Expr
import StageScript.Proofs.Parse.Block
import StageScript.Proofs.Parse.Script
import StageScript.Proofs.Tree.Descent
import StageScript.Proofs.Tree.Owner
import StageScript.Proofs.Tree.Place
import StageScript.Proofs.Tree.Tables
import StageScript.Proofs.Check.Cover
import StageScript.Proofs.Check.Exact
import StageScript.Proofs.Check.Violations
import StageScript.Proofs.Analysis.Live
import StageScript.Proofs.Analysis.Trail
import StageScript.Proofs.Analysis.Walk
import StageScript.Proofs.Analysis.Reach
import StageScript.Proofs.Verdict
import StageScript.Proofs.Lexical
import StageScript.Proofs.Analysis.Value
import StageScript.Proofs.Analysis.Valued
import StageScript.Proofs.Grammar.Derives
import StageScript.Proofs.Grammar.Steps
import StageScript.Proofs.Grammar.Sound
import StageScript.Proofs.Grammar.Complete
import StageScript.Proofs.Grammar.Recognise
import StageScript.Proofs.Render.Program
import StageScript.Proofs.Render.Read
import StageScript.Proofs.Render.Judge
import StageScript.Proofs.Render.Expr
import StageScript.Proofs.Render.Stmt
import StageScript.Proofs.Render.Declare
import StageScript.Proofs.Render.RoundTrip
import StageScript.Proofs.Parse.Compose
import StageScript.Proofs.Analysis.Phases
import StageScript.Proofs.Analysis.Law
import StageScript.Proofs.Analysis.Effect
import StageScript.Proofs.Analysis.Usage
import StageScript.Proofs.Token.Lexeme
import StageScript.Proofs.Token.Tiles
import StageScript.Proofs.Token.Respace
import StageScript.Proofs.Token.Cut
import StageScript.Proofs.Token.Longest
import StageScript.Proofs.Token.Spell
import StageScript.Proofs.Lines
import StageScript.Proofs.Lookup
import StageScript.Proofs.Marker
import StageScript.Proofs.Parse.Runs
import StageScript.Proofs.Parse.Origin
import StageScript.Proofs.Types.Join
import StageScript.Proofs.Types.Noted
import StageScript.Proofs.Parse.Depth
import StageScript.Proofs.Parse.Layout
import StageScript.Proofs.Spans
import StageScript.Proofs.Twin.Alike
import StageScript.Proofs.Twin.Basic
import StageScript.Proofs.Twin.Steps
import StageScript.Proofs.Twin.Expr
import StageScript.Proofs.Twin.Stmt
import StageScript.Proofs.Twin.Block
import StageScript.Proofs.Tree.Renumber
import StageScript.Proofs.Hosted
import StageScript.Proofs.Analysis.Course
import StageScript.Proofs.Analysis.Halt
import StageScript.Proofs.Analysis.Malformed
import StageScript.Proofs.Parse.Sites
import StageScript.Proofs.Parse.Faults
import StageScript.Proofs.Pointing
import StageScript.Proofs.Tree.Renamed
import StageScript.Proofs.Analysis.Renamed
import StageScript.Proofs.Check.Renamed
import StageScript.Proofs.Moved.Text
import StageScript.Proofs.Moved.Strip
import StageScript.Proofs.Moved.Swap
import StageScript.Proofs.Moved.Parse
import StageScript.Proofs.Moved
import StageScript.Proofs.Scopes
import StageScript.Proofs.Parse.Visits
import StageScript.Proofs.Parse.Unbounded
import StageScript.Proofs.Parse.Calls

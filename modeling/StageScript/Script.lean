import StageScript.Analysis.Walk
import StageScript.Check
import StageScript.Parse.Script
import StageScript.Token.Scan

/-!
# From source to verdict

`analyzeSource` takes a source through every stage.  A fault of the tokens, of the
grammar or of the tree comes alone; the faults of the checks come together.
-/

namespace StageScript

/-- A script without faults. -/
structure AnalyzedScript where
  tree : Tree
  annotations : Annotations
  deriving DecidableEq, Inhabited

/-- The diagnostics to show: a fatal one alone, or all. -/
def settle (ds : List Diagnostic) : List Diagnostic :=
  match ds.find? Diagnostic.isFatal with
  | some d => [d]
  | none => ds

/-- The script of a source, or what is wrong with it. -/
def analyzeSource (source file : String) (host : Host) (options : Options) :
    Except (List Diagnostic) AnalyzedScript := do
  let tokens ← (tokenize source file).mapError fun d => [d]
  let tree ← (parse tokens file host).mapError fun d => [d]
  let annotations ← (analyze tree options).mapError fun d => [d]
  match settle (check tree) with
  | [] => return ⟨tree, annotations⟩
  | ds => throw ds

end StageScript

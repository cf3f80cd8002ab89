import StageScript.Host
import StageScript.Parse.Stmt

/-!
# Scripts

A script is a list of statements.  They make the root block of its tree, whose
table holds the definitions of the host and those of the script.
-/

namespace StageScript

namespace Parse

/-- A whole script, among the definitions of the host. -/
def script (host : Host) : Parse Unit := do
  let origin ← look fun p => (⟨0, p.file⟩ : Position)
  host.definitions.forM fun d => do
    let _ ← declare d ⟨origin, origin⟩
  let ids ← here fun inner => do
    stmts inner (fun _ => false) (← look Parser.rounds)
  let table ← popScope
  let root ← pushFrom origin (.block ids table)
  change fun p => { p with tree := { p.tree with root } }

end Parse

/-- The tree of a script. -/
def parse (tokens : List Token) (file : String) (host : Host) : Except Diagnostic Tree :=
  match Parse.script host (Parser.start tokens file true) with
  | .ok _ p => .ok p.tree
  | .fail d _ => .error d

end StageScript

import StageScript.Diagnostic.Render
import StageScript.Script
import StageScript.Text.Layout

/-!
# The command line

What the command line is asked for, and what it says about a script: the time the
analysis took, with a summary if one was asked for, or the faults.
-/

namespace StageScript

/-- What the command line is asked for. -/
structure Request where
  path : String
  /-- The entry routines; none given stands for the usual ones. -/
  entryRoutines : List String
  summary : Bool
  deriving DecidableEq, Inhabited

/-- Why a script cannot be read. -/
inductive ReadFault where
  | missing
  | directory
  | notText
  | other (text : String)
  deriving DecidableEq, Inhabited

namespace ReadFault

def text : ReadFault → String
  | missing => "No such file or directory (os error 2)"
  | directory => "Is a directory (os error 21)"
  | notText => "stream did not contain valid UTF-8"
  | other text => text

end ReadFault

/-- What the command line says. -/
inductive Verdict where
  /-- A script without faults, and the lines of its summary. -/
  | sound (file : String) (summary : List String)
  /-- The text of what went wrong. -/
  | faulty (text : String)
  deriving DecidableEq, Inhabited

namespace Verdict

def exitCode : Verdict → Nat
  | sound _ _ => 0
  | faulty _ => 1

/-- The lines of the output; `timing` ends the first. -/
def output (timing : String) : Verdict → List String
  | sound file summary => ("Analyzed " ++ file ++ timing) :: summary
  | faulty _ => []

def errors : Verdict → String
  | sound _ _ => ""
  | faulty text => text

end Verdict

namespace Console

/-- The last part of a path, past the parts that stay in place; the path itself if it has none
or leads up. -/
def fileName (path : String) : String :=
  let parts := (Text.splitOn '/' path.toList).filter fun part => part ≠ [] && part ≠ ['.']
  match parts.getLast? with
  | some part => if part = ['.', '.'] then path else String.ofList part
  | none => path

/-- The options that a request asks for. -/
def options (request : Request) : Options where
  entryRoutines :=
    if request.entryRoutines.isEmpty then Options.defaultEntryRoutines
    else request.entryRoutines
  reportUnused := request.summary

/-- The line of a definition in the summary. -/
def stateLine (d : Definition) (s : DefState) : String :=
  Text.alignLeft 24 d.name ++ " reachable="
    ++ Text.alignLeft 5 (if s.unreachable then "false" else "true") ++ " ret="
    ++ Text.alignLeft 8 s.returns.text ++ " refs=" ++ Text.alignLeft 3 (toString s.reads)
    ++ " assigns=" ++ toString s.assigns

/-- A line for each definition of the script, and a warning for each variable never read. -/
def summary (script : AnalyzedScript) : List String :=
  let states := script.tree.definitions.filterMap fun (id, d) =>
    match script.annotations.state? id with
    | some s => if d.isHost then none else some (stateLine d s)
    | none => none
  let warnings := (script.annotations.unusedVariables script.tree).filterMap fun id =>
    (script.tree.definition id).toOption.map fun d => s!"warning: `{d.name}` is never read"
  states ++ warnings

/-- Every fault of a source, and their number. -/
def faults (source file : String) (ds : List Diagnostic) : String :=
  String.join (ds.map fun d => d.render source) ++ s!"{ds.length} error(s) in {file}\n"

/-- What is said about a request, given what reading its file gave. -/
def verdict (request : Request) : Except ReadFault String → Verdict
  | .error fault => .faulty s!"Failed to read {request.path}: {fault.text}\n"
  | .ok source =>
    let file := fileName request.path
    let options := options request
    match analyzeSource source file Host.standard options with
    | .ok script => .sound file (if options.reportUnused then summary script else [])
    | .error ds => .faulty (faults source file ds)

end Console

end StageScript

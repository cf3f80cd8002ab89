import StageScript.Console

/-!
# Running the command line

Reads the arguments and the file, prints the verdict and sets the exit code.
-/

namespace StageScript.Main

/-- Takes the arguments one by one. -/
def requestOf? : Request → Option String → List String → Option Request
  | request, path, [] => path.map fun path => { request with path }
  | request, none, ["--", path] => some { request with path }
  | request, path, "--summary" :: args => requestOf? { request with summary := true } path args
  | request, path, "--entry-routine" :: name :: args =>
    requestOf? { request with entryRoutines := request.entryRoutines ++ [name] } path args
  | request, path, arg :: args =>
    let option := "--entry-routine="
    if arg.startsWith option then
      let name := String.ofList (arg.toList.drop option.length)
      requestOf? { request with entryRoutines := request.entryRoutines ++ [name] } path args
    else if arg.startsWith "-" then none
    else
      match path with
      | some _ => none
      | none => requestOf? request (some arg) args

def usage : String := "Usage: [--entry-routine NAME]... [--summary] FILE\n"

/-- Why the system could not read a file. -/
def readFault : IO.Error → ReadFault
  | .noFileOrDirectory _ _ _ => .missing
  | .inappropriateType _ code text => if code = 21 then .directory else .other text
  | e => .other (toString e)

/-- The text of a file. -/
def read (path : String) : IO (Except ReadFault String) := do
  try
    let bytes ← IO.FS.readBinFile path
    match String.fromUTF8? bytes with
    | some source => return .ok source
    | none => return .error .notText
  catch e => return .error (readFault e)

/-- A time in milliseconds with six places. -/
def duration (nanoseconds : Nat) : String :=
  toString (nanoseconds / 1000000) ++ "."
    ++ Text.alignRight '0' 6 (toString (nanoseconds % 1000000)) ++ "ms"

end StageScript.Main

open StageScript in
def main (args : List String) : IO UInt32 := do
  match Main.requestOf? ⟨"", [], false⟩ none args with
  | none =>
    IO.eprint Main.usage
    return 2
  | some request =>
    let contents ← Main.read request.path
    let before ← IO.monoNanosNow
    let verdict := Console.verdict request contents
    IO.eprint verdict.errors
    let after ← IO.monoNanosNow
    for line in verdict.output (" in " ++ Main.duration (after - before)) do
      IO.println line
    return verdict.exitCode.toUInt32

import StageScript.Diagnostic.Basic
import StageScript.Source.Line
import StageScript.Text.Blank

/-!
# Diagnostics on screen

A rendered diagnostic names the fault and the file, and below them shows the line
of source with a marker under the faulty place:

    Error: UndefinedName (`count` is not defined)
    -> boss.dnh
      |
    7 | wait(count);
      | -----^
-/

namespace StageScript.Diagnostic

def isIndent (c : Char) : Bool := c = ' ' || c = '\t'

/-- The first line: the name of the fault, and the tip in parentheses. -/
def title (d : Diagnostic) : String :=
  match d.cause.tip? with
  | none => s!"Error: {d.cause.name}\n"
  | some tip => s!"Error: {d.cause.name} ({tip})\n"

/-- A line of source between two rows of the gutter.  Indentation is dropped from the line,
and the marker moves left by the bytes dropped. -/
def excerpt (line : Line) : String :=
  let number := toString line.number
  let gutter := Text.alignRight ' ' (number.length + 2) "|"
  let indent := line.text.toList.takeWhile isIndent
  let shown := String.ofList (Text.trimRight (line.text.toList.dropWhile isIndent))
  let marker := Text.alignRight '-' (line.column - Text.byteLength indent + 1) "^"
  gutter ++ "\n" ++ number ++ " | " ++ shown ++ "\n" ++ gutter ++ " " ++ marker ++ "\n"

/-- A diagnostic of `source` on screen.  A position outside the source has no excerpt. -/
def render (d : Diagnostic) (source : String) : String :=
  d.title ++ s!"-> {d.position.file}\n"
    ++ ((lineAt? source d.position.offset).map excerpt).getD ""

end StageScript.Diagnostic

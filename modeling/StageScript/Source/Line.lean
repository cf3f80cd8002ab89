import StageScript.Text.Layout

/-!
# Lines of a source

`lineAt?` finds the line that holds a byte offset: its number, its text with the
newline that ends it, and the byte offset of the place inside it.
-/

namespace StageScript

/-- A place on a line of a source. -/
structure Line where
  /-- The line's number, counted from one. -/
  number : Nat
  /-- The line's text, with the newline that ends it. -/
  text : String
  /-- The byte offset of the place inside the text. -/
  column : Nat
  deriving DecidableEq, Inhabited

namespace Line

/-- The lines of a text, each with the newline that ends it. -/
def split : List Char → List (List Char)
  | [] => []
  | c :: cs =>
    if c = '\n' then [c] :: split cs
    else
      match split cs with
      | [] => [[c]]
      | line :: lines => (c :: line) :: lines

/-- The line holding byte `offset` of the lines that start at number `number`. -/
def locate (number offset : Nat) : List (List Char) → Option Line
  | [] => none
  | line :: lines =>
    if offset < Text.byteLength line then some ⟨number, String.ofList line, offset⟩
    else locate (number + 1) (offset - Text.byteLength line) lines

end Line

/-- The line of `source` that holds the byte at `offset`; none from the end on. -/
def lineAt? (source : String) (offset : Nat) : Option Line :=
  Line.locate 1 offset (Line.split source.toList)

end StageScript

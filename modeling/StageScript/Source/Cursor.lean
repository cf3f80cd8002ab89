import StageScript.Source.Position
import StageScript.Text.Layout

/-!
# A cursor in a source

A cursor walks a source by bytes.  It may be moved past the end, where nothing
remains.  The cursor itself does not wrap around; the positions that it gives do.
-/

namespace StageScript

/-- A byte offset into the text of a named source. -/
structure Cursor where
  source : List Char
  offset : Nat
  file : String
  deriving DecidableEq, Inhabited

namespace Cursor

/-- The cursor at the start of a source. -/
def start (source file : String) : Cursor := ⟨source.toList, 0, file⟩

def advance (c : Cursor) (bytes : Nat) : Cursor := { c with offset := c.offset + bytes }

/-- The text after its first `bytes` bytes; a character begun is dropped whole. -/
def dropBytes : Nat → List Char → List Char
  | _, [] => []
  | 0, cs => cs
  | n + 1, c :: cs => dropBytes (n + 1 - c.utf8Size) cs

/-- What follows the cursor. -/
def remainder (c : Cursor) : List Char := dropBytes c.offset c.source

theorem dropBytes_zero (cs : List Char) : dropBytes 0 cs = cs := by cases cs <;> rfl

theorem remainder_start (source file : String) : (start source file).remainder = source.toList :=
  dropBytes_zero source.toList

/-- The character at the cursor; the null character at the end. -/
def current (c : Cursor) : Char := c.remainder.head?.getD '\x00'

def atEnd (c : Cursor) : Bool := Text.byteLength c.source ≤ c.offset

def position (c : Cursor) : Position := .behind c.file c.offset

/-- The span of `bytes` bytes from the cursor on. -/
def spanOf (c : Cursor) (bytes : Nat) : Span := .ofBytes c.file c.offset (c.offset + bytes)

end Cursor

end StageScript

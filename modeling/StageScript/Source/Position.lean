import StageScript.Number.Narrow

/-!
# Positions and spans

Every place in a script is a byte offset into a named source text, of 32 bits.  A
`Span` is the piece of source between two such places.
-/

namespace StageScript

/-- A byte offset into the source called `file`. -/
structure Position where
  offset : Nat
  file : String
  deriving DecidableEq, Inhabited

namespace Position

/-- The position of what stands in no source. -/
def nowhere : Position := ⟨0, "<null>"⟩

/-- The position behind so many bytes of `file`. -/
def behind (file : String) (bytes : Nat) : Position := ⟨narrow bytes, file⟩

/-- The file name and the offset, joined by a colon. -/
def text (p : Position) : String := s!"{p.file}:{p.offset}"

end Position

/-- The source from `start` up to `stop`, `stop` not included. -/
structure Span where
  start : Position
  stop : Position
  deriving DecidableEq, Inhabited

namespace Span

/-- The span between two offsets into `file`. -/
def ofOffsets (file : String) (start stop : Nat) : Span := ⟨⟨start, file⟩, ⟨stop, file⟩⟩

/-- The span of the bytes `start` to `stop` of `file`. -/
def ofBytes (file : String) (start stop : Nat) : Span := ⟨.behind file start, .behind file stop⟩

end Span

end StageScript

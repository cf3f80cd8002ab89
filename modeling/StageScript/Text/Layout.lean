/-!
# Measures and columns

Sizes of a text in bytes, and padding of a text to a given number of characters.
-/

namespace StageScript.Text

/-- The size of a text in bytes of UTF-8. -/
def byteLength : List Char → Nat
  | [] => 0
  | c :: cs => c.utf8Size + byteLength cs

/-- The text in a column of `width` characters, against the column's left edge. -/
def alignLeft (width : Nat) (s : String) : String :=
  s ++ String.ofList (List.replicate (width - s.length) ' ')

/-- The text in a column of `width` characters, against the column's right edge, with
the room before it taken by `fill`. -/
def alignRight (fill : Char) (width : Nat) (s : String) : String :=
  String.ofList (List.replicate (width - s.length) fill) ++ s

/-- The pieces of a text between the separators `sep`; one more piece than separators. -/
def splitOn (sep : Char) : List Char → List (List Char)
  | [] => [[]]
  | c :: cs =>
    if c = sep then [] :: splitOn sep cs
    else
      match splitOn sep cs with
      | [] => [[c]]
      | piece :: pieces => (c :: piece) :: pieces

end StageScript.Text

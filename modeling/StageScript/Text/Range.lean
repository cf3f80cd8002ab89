/-!
# Ranges of code points

A class of characters is given as a table of ranges with both ends included.
-/

namespace StageScript.Text

/-- Whether one of the ranges holds `n`. -/
def inRanges (ranges : List (Nat × Nat)) (n : Nat) : Bool :=
  ranges.any fun (lo, hi) => lo ≤ n && n ≤ hi

end StageScript.Text

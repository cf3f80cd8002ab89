import StageScript.Number.Binary64

/-!
# Numerals

The written forms of a number: an optional sign, then `inf`, `infinity` or `nan`
in any letter case, or decimal digits with an optional point, at least one digit
on either side of it, and an optional exponent.
-/

namespace StageScript.Numeral

def isDigit (c : Char) : Bool := '0' ≤ c && c ≤ '9'

def digitValue (c : Char) : Nat := c.toNat - '0'.toNat

/-- The value of a run of decimal digits. -/
def value (digits : List Char) : Nat := digits.foldl (fun n c => 10 * n + digitValue c) 0

/-- An exponent of 65536 or more is beyond the range of every numeral that is not enormous
itself, so further digits do not change it. -/
def exponentBound : Nat := 65536

/-- The value of the digits of an exponent, as far as it matters. -/
def exponentValue (digits : List Char) : Nat :=
  digits.foldl (fun n c => if n < exponentBound then 10 * n + digitValue c else n) 0

/-- A sign at the start, if there is one, and what follows. -/
def splitSign : List Char → Bool × List Char
  | '-' :: cs => (true, cs)
  | '+' :: cs => (false, cs)
  | cs => (false, cs)

/-- The exponent that ends a numeral; nothing is no exponent, which is zero. -/
def exponent? : List Char → Option Int
  | [] => some 0
  | c :: cs =>
    if c = 'e' ∨ c = 'E' then
      let (negative, digits) := splitSign cs
      if digits ≠ [] ∧ digits.all isDigit then
        let e : Int := exponentValue digits
        some (if negative then -e else e)
      else none
    else none

/-- The digits after a point, if there is one, and what follows. -/
def splitFraction : List Char → List Char × List Char
  | '.' :: cs => (cs.takeWhile isDigit, cs.dropWhile isDigit)
  | cs => ([], cs)

/-- A numeral without sign in decimal digits: the digits as one number, and the power of ten
that scales it. -/
def decimal? (cs : List Char) : Option (Nat × Int) :=
  let whole := cs.takeWhile isDigit
  let (fraction, rest) := splitFraction (cs.dropWhile isDigit)
  if whole = [] ∧ fraction = [] then none
  else (exponent? rest).map fun e => (value (whole ++ fraction), e - fraction.length)

/-- The number that a text is a numeral of. -/
def parse? (s : String) : Option Binary64 :=
  let (negative, cs) := splitSign s.toList
  match decimal? cs with
  | some (digits, exponent) => some (Binary64.ofDecimal negative digits exponent)
  | none =>
    let word := String.ofList (cs.map Char.toLower)
    if word = "inf" ∨ word = "infinity" then some (Binary64.infinity negative)
    else if word = "nan" then some (Binary64.nan negative)
    else none

end StageScript.Numeral

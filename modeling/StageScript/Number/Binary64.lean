/-!
# Numbers in 64 bits

A number is kept as the 64 bits of its IEEE 754 double.  `Binary64.ofDecimal`
gives the double nearest to a decimal; of two that are equally near, the one whose
last bit is zero.  All arithmetic is on natural numbers and exact.
-/

namespace StageScript

/-- A double, by its bits. -/
structure Binary64 where
  bits : UInt64
  deriving DecidableEq, Inhabited

namespace Binary64

/-- The bit patterns of the magnitudes from infinity on. -/
def infinityBits : Nat := 0x7ff0000000000000

/-- The double with the given sign and the given bits below the sign. -/
def ofMagnitude (negative : Bool) (magnitude : Nat) : Binary64 :=
  ⟨UInt64.ofNat (if negative then 0x8000000000000000 + magnitude else magnitude)⟩

def infinity (negative : Bool) : Binary64 := ofMagnitude negative infinityBits

def nan (negative : Bool) : Binary64 := ofMagnitude negative 0x7ff8000000000000

/-- The integer nearest to `num / den`, the even one of two equally near. -/
def roundEven (num den : Nat) : Nat :=
  let q := num / den
  let r := num % den
  if 2 * r < den then q
  else if 2 * r = den then q + q % 2
  else q + 1

/-- The ratio `num / den` divided by `2 ^ e`, as a numerator and a denominator. -/
def scale (num den : Nat) : Int → Nat × Nat
  | .ofNat e => (num, den <<< e)
  | .negSucc e => (num <<< (e + 1), den)

/-- The exponent of the last place of the double for `num / den`: the significand has 53
bits, but for the magnitudes below the normal range, which share one last place. -/
def lastPlace (num den : Nat) : Int :=
  let e : Int := (num.log2 : Int) - (den.log2 : Int) - 52
  let (n, d) := scale num den e
  max (if n < 0x10000000000000 * d then e - 1 else e) (-1074)

/-- The magnitude bits of the double nearest to `num / den`.  A significand that rounds up to
the next power of two carries into the exponent, and too large a value is infinity. -/
def roundRatio (num den : Nat) : Nat :=
  let e := lastPlace num den
  let (n, d) := scale num den e
  min ((e + 1074).toNat * 0x10000000000000 + roundEven n d) infinityBits

/-- The magnitude bits of the double nearest to `digits * 10 ^ exponent`.  A value of more
than 310 places is beyond every double, one with its first place after the 330th is nearer to
zero than to any other. -/
def roundDecimal (digits : Nat) (exponent : Int) : Nat :=
  if digits = 0 then 0
  else
    let places := ((Nat.toDigits 10 digits).length : Int) + exponent
    if 310 < places then infinityBits
    else if places < -330 then 0
    else
      match exponent with
      | .ofNat e => roundRatio (digits * Nat.pow 10 e) 1
      | .negSucc e => roundRatio digits (Nat.pow 10 (e + 1))

/-- The double nearest to `digits * 10 ^ exponent`, with a sign. -/
def ofDecimal (negative : Bool) (digits : Nat) (exponent : Int) : Binary64 :=
  ofMagnitude negative (roundDecimal digits exponent)

end Binary64

end StageScript

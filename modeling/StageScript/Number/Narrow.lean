/-!
# Numbers of 32 bits

Offsets into a source and the counters of the analysis have 32 bits.  A number that does not fit
wraps around: nothing reports it.
-/

namespace StageScript

/-- What 32 bits hold of a number. -/
def narrow (n : Nat) : Nat := n % UInt32.size

theorem narrow_lt (n : Nat) : narrow n < UInt32.size := Nat.mod_lt _ (by decide)

theorem narrow_of_lt {n : Nat} (h : n < UInt32.size) : narrow n = n := Nat.mod_eq_of_lt h

theorem narrow_eq_self_iff {n : Nat} : narrow n = n ↔ n < UInt32.size :=
  ⟨fun h => h ▸ narrow_lt n, narrow_of_lt⟩

/-- Wrapping around early does not matter to a sum. -/
theorem narrow_narrow_add (m n : Nat) : narrow (narrow m + n) = narrow (m + n) :=
  Nat.mod_add_mod m UInt32.size n

end StageScript

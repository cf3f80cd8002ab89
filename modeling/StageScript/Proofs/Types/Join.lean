import Mathlib
import StageScript.Ty

/-!
# Joins of types

Types are widened in two places.  A concatenation is at worst an array of anything, and an element
of an array is at worst anything.  Both follow one order, except for what stands at its top
(`Ty.Below top`): the empty array is below all arrays and strings, and everything is below `top`.
Any two types have a join in this order.  If it is not the top, one of the two is below the other,
and `Ty.widen?` finds it.

So `Ty.unify` is a join of two types (`Ty.unify_eq`) and `Ty.unifyElements` one of a list
(`Ty.isJoin_unifyElements`).  Order, grouping and repetition do not matter to joins.
-/

namespace StageScript.Ty

/-- The order of types in which `top` is above all others. -/
inductive Below (top : Ty) : Ty → Ty → Prop
  | refl (t : Ty) : Below top t t
  | top (t : Ty) : Below top t top
  | array (e : Ty) : Below top emptyArray (array e)
  | string : Below top emptyArray string

/-- The type is below the other one, whatever stands at the top. -/
def Fits (a b : Ty) : Prop := a = b ∨ a = emptyArray ∧ b.isArrayLike = true

variable {top a b c : Ty}

/-! ### The order -/

theorem below_iff : Below top a b ↔ b = top ∨ Fits a b := by
  constructor
  · intro h
    cases h with
    | refl => exact .inr (.inl rfl)
    | top => exact .inl rfl
    | array e => exact .inr (.inr ⟨rfl, rfl⟩)
    | string => exact .inr (.inr ⟨rfl, rfl⟩)
  · rintro (rfl | rfl | ⟨rfl, hb⟩)
    · exact .top a
    · exact .refl a
    · cases b with
      | array e => exact .array e
      | string => exact .string
      | _ => cases hb

theorem Fits.trans (hab : Fits a b) (hbc : Fits b c) : Fits a c := by
  rcases hab with rfl | ⟨ha, hb⟩
  · exact hbc
  · rcases hbc with rfl | ⟨-, hc⟩
    · exact .inr ⟨ha, hb⟩
    · exact .inr ⟨ha, hc⟩

namespace Below

variable (hTop : top ≠ emptyArray)

include hTop

theorem eq_top (h : Below top top a) : a = top := by
  rcases below_iff.mp h with rfl | rfl | ⟨hEmpty, -⟩
  · rfl
  · rfl
  · exact absurd hEmpty hTop

theorem trans (hab : Below top a b) (hbc : Below top b c) : Below top a c := by
  rcases below_iff.mp hab with rfl | hab
  · rw [hbc.eq_top hTop]
    exact .top a
  · rcases below_iff.mp hbc with rfl | hbc
    · exact .top a
    · exact below_iff.mpr (.inr (hab.trans hbc))

theorem antisymm (hab : Below top a b) (hba : Below top b a) : a = b := by
  rcases below_iff.mp hab with rfl | rfl | ⟨rfl, -⟩
  · exact hba.eq_top hTop
  · rfl
  · rcases below_iff.mp hba with hEmpty | rfl | ⟨rfl, -⟩
    · exact absurd hEmpty.symm hTop
    · rfl
    · rfl

end Below

/-! ### Two types -/

def joinUpTo (top a b : Ty) : Ty := (widen? a b).getD top

theorem isEmptyArray_iff : a.isEmptyArray = true ↔ a = emptyArray := decide_eq_true_iff

theorem widen?_comm (a b : Ty) : widen? a b = widen? b a := by
  simp only [widen?, Bool.and_eq_true, isEmptyArray_iff]
  split_ifs <;> simp_all

theorem widen?_of_fits (h : Fits a b) : widen? a b = some b := by
  rcases h with rfl | ⟨rfl, hb⟩
  · exact if_pos rfl
  · simp only [widen?, Bool.and_eq_true, isEmptyArray_iff]
    split_ifs <;> simp_all

theorem fits_of_widen? (h : widen? a b = some c) : Fits a c := by
  simp only [widen?, Bool.and_eq_true, isEmptyArray_iff] at h
  split_ifs at h with hEq hRight hLeft
  · exact .inl (Option.some.inj h)
  · exact .inl (Option.some.inj h)
  · exact .inr ⟨hLeft.1, Option.some.inj h ▸ hLeft.2⟩

theorem joinUpTo_comm (top a b : Ty) : joinUpTo top a b = joinUpTo top b a := by
  rw [joinUpTo, joinUpTo, widen?_comm]

theorem below_joinUpTo (top a b : Ty) : Below top a (joinUpTo top a b) := by
  rw [joinUpTo]
  cases h : widen? a b with
  | none => exact .top a
  | some c => exact below_iff.mpr (.inr (fits_of_widen? h))

theorem joinUpTo_below (hac : Below top a c) (hbc : Below top b c) :
    Below top (joinUpTo top a b) c := by
  rcases below_iff.mp hac with rfl | ha
  · exact .top _
  rcases below_iff.mp hbc with rfl | hb
  · exact .top _
  -- Below a type that is not the top, one of the two is the empty array or both are that type.
  rw [joinUpTo]
  rcases hb with rfl | ⟨rfl, hc⟩
  · rw [widen?_of_fits ha]
    exact .refl b
  · rcases ha with rfl | ⟨rfl, -⟩
    · rw [widen?_comm, widen?_of_fits (.inr ⟨rfl, hc⟩)]
      exact .refl a
    · rw [widen?_of_fits (.inl rfl)]
      exact hac

@[reducible] def semilattice (top : Ty) (hTop : top ≠ emptyArray) : SemilatticeSup Ty where
  le := Below top
  le_refl := .refl
  le_trans _ _ _ := Below.trans hTop
  le_antisymm _ _ := Below.antisymm hTop
  sup := joinUpTo top
  le_sup_left := below_joinUpTo top
  le_sup_right a b := joinUpTo_comm top b a ▸ below_joinUpTo top b a
  sup_le _ _ _ := joinUpTo_below

/-! ### Concatenations -/

theorem array_any_ne_emptyArray : array any ≠ emptyArray := by decide

theorem unify_eq (a b : Ty) : a.unify b = joinUpTo (array any) a b := by
  simp only [unify, joinUpTo, widen?, Bool.and_eq_true, isEmptyArray_iff]
  split_ifs <;> simp_all

theorem unify_self (a : Ty) : a.unify a = a := if_pos rfl

theorem unify_comm (a b : Ty) : a.unify b = b.unify a := by
  rw [unify_eq, unify_eq, joinUpTo_comm]

theorem unify_assoc (a b c : Ty) : a.unify (b.unify c) = (a.unify b).unify c := by
  simp only [unify_eq]
  exact (@sup_assoc Ty (semilattice _ array_any_ne_emptyArray) a b c).symm

theorem unify_array_any (a : Ty) : a.unify (array any) = array any := by
  rw [unify_eq]
  exact (@sup_eq_right Ty (semilattice _ array_any_ne_emptyArray) a _).mpr (.top a)

theorem isArrayLike_unify (ha : a.isArrayLike = true) (hb : b.isArrayLike = true) :
    (a.unify b).isArrayLike = true := by
  rw [unify]
  split_ifs
  · exact ha
  · exact hb
  · exact ha
  · rfl

/-! ### Lists of types -/

/-- The type is the least one above those of the list. -/
def IsJoin (top : Ty) (ts : List Ty) (t : Ty) : Prop := @IsLUB Ty ⟨Below top⟩ {x | x ∈ ts} t

namespace IsJoin

variable {ts us : List Ty}

theorem singleton (hTop : top ≠ emptyArray) (t : Ty) : IsJoin top [t] t := by
  have hSet : {x | x ∈ [t]} = {t} := Set.ext fun _ => List.mem_singleton
  rw [IsJoin, hSet]
  exact @isLUB_singleton Ty (semilattice top hTop).toPreorder t

theorem append (hTop : top ≠ emptyArray) (h : IsJoin top ts a) (g : IsJoin top us b) :
    IsJoin top (ts ++ us) (joinUpTo top a b) := by
  have hSet : {x | x ∈ ts ++ us} = {x | x ∈ ts} ∪ {x | x ∈ us} := Set.ext fun _ => List.mem_append
  rw [IsJoin, hSet]
  exact @IsLUB.union Ty (semilattice top hTop) _ _ _ _ h g

/-- Only what types there are matters, not in which order and how often. -/
theorem unique (hTop : top ≠ emptyArray) (h : IsJoin top ts a) (g : IsJoin top us b)
    (hSame : ∀ t, t ∈ ts ↔ t ∈ us) : a = b := by
  have hSets : {x | x ∈ ts} = {x | x ∈ us} := Set.ext hSame
  rw [IsJoin, hSets] at h
  exact @IsLUB.unique Ty (semilattice top hTop).toPartialOrder _ _ _ h g

theorem foldl (hTop : top ≠ emptyArray) (h : IsJoin top ts a) (us : List Ty) :
    IsJoin top (ts ++ us) (us.foldl (joinUpTo top) a) := by
  induction us generalizing ts a with
  | nil =>
    rw [List.append_nil]
    exact h
  | cons u us ih =>
    have hNext := ih (h.append hTop (singleton hTop u))
    rw [List.append_assoc, List.singleton_append] at hNext
    exact hNext

end IsJoin

theorem any_ne_emptyArray : any ≠ emptyArray := by decide

/-- At the top nothing is widened further. -/
theorem foldl_joinUpTo_any (ts : List Ty) : ts.foldl (joinUpTo any) any = any := by
  induction ts with
  | nil => rfl
  | cons t ts ih =>
    have hTop : joinUpTo any any t = any :=
      (@sup_eq_left Ty (semilattice _ any_ne_emptyArray) _ t).mpr (.top t)
    rw [List.foldl_cons, hTop, ih]

/-- To stop at the first types that do not fit is to go on with the top. -/
theorem unifyElements_cons (t : Ty) (ts : List Ty) :
    unifyElements (t :: ts) = ts.foldl (joinUpTo any) t := by
  rw [unifyElements]
  induction ts generalizing t with
  | nil => rfl
  | cons u ts ih =>
    rw [List.foldlM_cons, List.foldl_cons, joinUpTo]
    cases widen? t u with
    | none => exact (foldl_joinUpTo_any ts).symm
    | some v => exact ih v

theorem isJoin_unifyElements {ts : List Ty} (h : ts ≠ []) : IsJoin any ts (unifyElements ts) := by
  obtain ⟨t, ts, rfl⟩ := List.exists_cons_of_ne_nil h
  rw [unifyElements_cons]
  exact (IsJoin.singleton any_ne_emptyArray t).foldl any_ne_emptyArray ts

/-- The element type of two lists put together is that of the element types of both. -/
theorem unifyElements_append {ts us : List Ty} (hts : ts ≠ []) (hus : us ≠ []) :
    unifyElements (ts ++ us) = unifyElements [unifyElements ts, unifyElements us] := by
  have hAll := isJoin_unifyElements (List.append_ne_nil_of_left_ne_nil hts us)
  have hPair := (isJoin_unifyElements hts).append any_ne_emptyArray (isJoin_unifyElements hus)
  rw [unifyElements_cons]
  exact hAll.unique any_ne_emptyArray hPair fun _ => .rfl

end StageScript.Ty

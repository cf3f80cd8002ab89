import Mathlib
import StageScript.Proofs.Analysis.Live

/-!
# The trail of a walk

`Walked t options busy nodes fresh a b` says what a part of an analysis did to the
annotations: it visited `nodes` and everything below the definitions in `fresh`, which it
reached first, once for each time they are listed there, and changed the notes of no other
node but those it is `busy` with.  Whatever a visited node refers to is reached in the end,
busy nodes apart.  Trails of walks in turn are put together by `Walked.trans`.
-/

namespace StageScript

namespace Annotations

theorem get?_modify (a : Annotations) (id n : NodeId) (f : Entry → Entry) :
    (a.modify id f).get? n = if id = n then (a.get? n).map f else a.get? n :=
  Array.getElem?_modify

theorem get?_modify_self {a : Annotations} {id : NodeId} {e : Entry} (h : a.get? id = some e)
    (f : Entry → Entry) : (a.modify id f).get? id = some (f e) := by
  rw [get?_modify, if_pos rfl, h]
  rfl

theorem get?_modify_of_ne (a : Annotations) {id n : NodeId} (h : id ≠ n) (f : Entry → Entry) :
    (a.modify id f).get? n = a.get? n := by
  rw [get?_modify, if_neg h]

/-- A change that leaves the visits of the entry leaves all visits. -/
theorem visits_modify {a : Annotations} {id : NodeId} {e : Entry} (h : a.get? id = some e)
    {f : Entry → Entry} (hVisits : (f e).visits = e.visits) (n : NodeId) :
    (a.modify id f).visits n = a.visits n := by
  by_cases hn : id = n
  · subst hn
    rw [visits, visits, get?_modify_self h, h, Option.map_some, Option.map_some, hVisits]
  · rw [visits, visits, a.get?_modify_of_ne hn]

/-- A change that leaves the note of the entry leaves all notes. -/
theorem note?_modify {a : Annotations} {id : NodeId} {e : Entry} (h : a.get? id = some e)
    {f : Entry → Entry} (hNote : (f e).note = e.note) (n : NodeId) :
    (a.modify id f).note? n = a.note? n := by
  by_cases hn : id = n
  · subst hn
    rw [note?, note?, get?_modify_self h, h, Option.map_some, Option.map_some, hNote]
  · rw [note?, note?, a.get?_modify_of_ne hn]

/-- A change that leaves the mark of the entry leaves all marks. -/
theorem isReachable_modify {a : Annotations} {id : NodeId} {e : Entry} (h : a.get? id = some e)
    {f : Entry → Entry}
    (hState : (f e).state.map DefState.unreachable = e.state.map DefState.unreachable)
    (d : NodeId) : (a.modify id f).isReachable d = a.isReachable d := by
  by_cases hd : id = d
  · subst hd
    have hFlag := congrArg (fun o => (o.map fun u => !u).getD false) hState
    simpa [isReachable, state?, get?_modify_self h, h, Option.map_map, Function.comp_def]
      using hFlag
  · rw [isReachable, isReachable, state?, state?, a.get?_modify_of_ne hd]

theorem visits_visit_of_ne (a : Annotations) {id n : NodeId} (h : n ≠ id) :
    (a.visit id).visits n = a.visits n := by
  rw [visits, visits, visit, a.get?_modify_of_ne (Ne.symm h)]

theorem visits_visit_self {a : Annotations} {id : NodeId} (h : id < a.entries.size) :
    (a.visit id).visits id = narrow (a.visits id + 1) := by
  have he : a.get? id = some a.entries[id] := Array.getElem?_eq_getElem h
  rw [visits, visits, visit, get?_modify_self he, he]
  rfl

theorem visits_visit_lt {a : Annotations} (h : ∀ n, a.visits n < 2 ^ 32) (id n : NodeId) :
    (a.visit id).visits n < 2 ^ 32 := by
  by_cases hn : n = id
  · subst hn
    rw [visits, visit, get?_modify, if_pos rfl]
    cases a.get? n with
    | none => exact Nat.two_pow_pos 32
    | some e => exact narrow_lt _
  · rw [a.visits_visit_of_ne hn]
    exact h n

end Annotations

/-- The annotations have an entry for each node of the tree, and a state for each definition.  Their
visits have 32 bits. -/
structure Tree.Carries (t : Tree) (a : Annotations) : Prop where
  entry : ∀ id k, t.kind? id = some k →
    ∃ e, a.get? id = some e ∧ (k.isDefinition = true → ∃ s, e.state = some s)
  visits_lt : ∀ n, a.visits n < 2 ^ 32

/-- A change of one entry that takes no state away. -/
theorem Tree.Carries.modify {t : Tree} {a : Annotations} {id : NodeId} {e : Entry}
    {f : Entry → Entry} (h : t.Carries a) (he : a.get? id = some e)
    (hState : (∃ s, e.state = some s) → ∃ s, (f e).state = some s)
    (hVisits : ∀ n, (a.modify id f).visits n < 2 ^ 32) : t.Carries (a.modify id f) := by
  refine ⟨fun n k hk => ?_, hVisits⟩
  obtain ⟨e', he', hs⟩ := h.entry n k hk
  by_cases hn : id = n
  · subst hn
    rw [he] at he'
    cases he'
    exact ⟨_, Annotations.get?_modify_self he f, fun hd => hState (hs hd)⟩
  · exact ⟨e', (a.get?_modify_of_ne hn f).trans he', hs⟩

def Settled (t : Tree) (options : Options) (a : Annotations) (n : NodeId) : Prop :=
  ∀ d, Refers t options n d → a.isReachable d = true

/-- The nodes visited by a walk of `nodes` that reaches the definitions `fresh`. -/
def Tree.trail (t : Tree) (nodes fresh : List NodeId) : List NodeId :=
  nodes ++ fresh.flatMap (subtree t.partsOf)

structure Walked (t : Tree) (options : Options) (busy nodes fresh : List NodeId)
    (a b : Annotations) : Prop where
  nodup : fresh.Nodup
  new : ∀ d ∈ fresh, a.isReachable d = false
  reached : ∀ d, b.isReachable d = true ↔ a.isReachable d = true ∨ d ∈ fresh
  visits : ∀ n, b.visits n = narrow (a.visits n + (t.trail nodes fresh).count n)
  notes : ∀ n, n ∉ busy → n ∉ t.trail nodes fresh → b.note? n = a.note? n
  settled : ∀ n ∈ t.trail nodes fresh, n ∉ busy → Settled t options b n
  live : ∀ d ∈ fresh, Live t options (.definition d)
  carries : t.Carries b

theorem Settled.mono {t : Tree} {options : Options} {a b : Annotations} {n : NodeId}
    (h : Settled t options a n) (hab : ∀ d, a.isReachable d = true → b.isReachable d = true) :
    Settled t options b n :=
  fun d hd => hab d (h d hd)

theorem Tree.trail_append_perm (t : Tree) (nodes more fresh later : List NodeId) :
    (t.trail (nodes ++ more) (fresh ++ later)).Perm (t.trail nodes fresh ++ t.trail more later) := by
  rw [trail, trail, trail, List.flatMap_append, List.append_assoc, List.append_assoc]
  refine .append_left nodes ?_
  rw [← List.append_assoc, ← List.append_assoc]
  exact List.perm_append_comm.append_right _

namespace Walked

variable {t : Tree} {options : Options} {busy nodes more fresh later : List NodeId}
  {a b c : Annotations}

theorem mono (h : Walked t options busy nodes fresh a b) {d : NodeId}
    (hd : a.isReachable d = true) : b.isReachable d = true :=
  (h.reached d).mpr (Or.inl hd)

/-- Walks in turn. -/
theorem trans (h : Walked t options busy nodes fresh a b)
    (g : Walked t options busy more later b c) :
    Walked t options busy (nodes ++ more) (fresh ++ later) a c := by
  have hPerm := t.trail_append_perm nodes more fresh later
  refine ⟨?_, ?_, ?_, ?_, ?_, ?_, ?_, g.carries⟩
  · refine h.nodup.append g.nodup fun d hd hl => ?_
    have hb := (h.reached d).mpr (Or.inr hd)
    rw [g.new d hl] at hb
    cases hb
  · intro d hd
    rcases List.mem_append.mp hd with hd | hd
    · exact h.new d hd
    · cases hr : a.isReachable d with
      | false => rfl
      | true => exact (h.mono hr).symm.trans (g.new d hd)
  · intro d
    rw [g.reached, h.reached, List.mem_append, or_assoc]
  · intro n
    rw [g.visits, h.visits, hPerm.count_eq, List.count_append, narrow_narrow_add, Nat.add_assoc]
  · intro n hBusy hn
    rw [hPerm.mem_iff, List.mem_append, not_or] at hn
    rw [g.notes n hBusy hn.2, h.notes n hBusy hn.1]
  · intro n hn hBusy
    rw [hPerm.mem_iff, List.mem_append] at hn
    rcases hn with hn | hn
    · exact (h.settled n hn hBusy).mono fun d => g.mono
    · exact g.settled n hn hBusy
  · intro d hd
    rcases List.mem_append.mp hd with hd | hd
    · exact h.live d hd
    · exact g.live d hd

/-- Being busy with more nodes asks for less. -/
theorem busier (h : Walked t options [] nodes fresh a b) (busy : List NodeId) :
    Walked t options busy nodes fresh a b :=
  { h with
    notes := fun n _ => h.notes n List.not_mem_nil
    settled := fun n hn _ => h.settled n hn List.not_mem_nil }

/-- The end of a walk of a node: it is visited, and what it refers to is reached. -/
theorem done {id : NodeId} (h : Walked t options [id] nodes fresh a b) (hid : id ∈ nodes)
    (hs : Settled t options b id) : Walked t options [] nodes fresh a b := by
  have hTrail : id ∈ t.trail nodes fresh := List.mem_append_left _ hid
  refine { h with notes := ?_, settled := ?_ }
  · intro n _ hn
    refine h.notes n ?_ hn
    rw [List.mem_singleton]
    rintro rfl
    exact hn hTrail
  · intro n hn _
    by_cases he : n = id
    · exact he ▸ hs
    · exact h.settled n hn (by rwa [List.mem_singleton])

end Walked

/-! ### Single changes -/

namespace Walked

variable {t : Tree} {options : Options} {busy : List NodeId} {a : Annotations} {id : NodeId}

theorem refl (h : t.Carries a) : Walked t options busy [] [] a a where
  nodup := List.nodup_nil
  new := nofun
  reached d := by simp
  visits n := (narrow_of_lt (h.visits_lt n)).symm
  notes _ _ _ := rfl
  settled := nofun
  live := nofun
  carries := h

/-- A change of one entry that leaves its visits and its mark, and its note unless the node
is busy. -/
theorem quiet {e : Entry} {f : Entry → Entry} (h : t.Carries a) (he : a.get? id = some e)
    (hVisits : (f e).visits = e.visits)
    (hState : (f e).state.map DefState.unreachable = e.state.map DefState.unreachable)
    (hNote : id ∈ busy ∨ (f e).note = e.note) :
    Walked t options busy [] [] a (a.modify id f) := by
  have hKept := Annotations.visits_modify he hVisits
  refine ⟨List.nodup_nil, nofun, ?_, ?_, ?_, nofun, nofun, h.modify he ?_ ?_⟩
  · intro d
    rw [Annotations.isReachable_modify he hState]
    simp
  · intro n
    rw [hKept]
    exact (narrow_of_lt (h.visits_lt n)).symm
  · intro n hFree _
    rcases hNote with hBusy | hNote
    · have hn : id ≠ n := by
        rintro rfl
        exact hFree hBusy
      rw [Annotations.note?, Annotations.note?, a.get?_modify_of_ne hn]
    · exact Annotations.note?_modify he hNote n
  · rintro ⟨s, hs⟩
    rw [hs, Option.map_some] at hState
    obtain ⟨s', hs', -⟩ := Option.map_eq_some_iff.mp hState
    exact ⟨s', hs'⟩
  · exact fun n => hKept n ▸ h.visits_lt n

/-- A visit of a busy node. -/
theorem visit {k : NodeKind} (h : t.Carries a) (hk : t.kind? id = some k) (hBusy : id ∈ busy) :
    Walked t options busy [id] [] a (a.visit id) := by
  obtain ⟨e, he, -⟩ := h.entry id k hk
  refine ⟨List.nodup_nil, nofun, ?_, ?_, ?_, ?_, nofun,
    h.modify he (fun hs => hs) (Annotations.visits_visit_lt h.visits_lt id)⟩
  · intro d
    rw [Annotations.visit, Annotations.isReachable_modify he rfl]
    simp
  · intro n
    by_cases hn : id = n
    · subst hn
      rw [Annotations.visits_visit_self (Array.getElem?_eq_some_iff.mp he).1]
      simp [Tree.trail]
    · have hCount : (t.trail [id] []).count n = 0 := by simp [Tree.trail, hn]
      rw [a.visits_visit_of_ne (Ne.symm hn), hCount, Nat.add_zero, narrow_of_lt (h.visits_lt n)]
  · intro n _ _
    exact Annotations.note?_modify he rfl n
  · intro n hn hFree
    simp only [Tree.trail, List.flatMap_nil, List.append_nil, List.mem_singleton] at hn
    exact absurd hBusy (hn ▸ hFree)

end Walked

/-! ### First uses -/

/-- The step from `a` to `b` marks the definition `d` as reached, and does nothing else. -/
structure Marks (t : Tree) (d : NodeId) (a b : Annotations) : Prop where
  new : a.isReachable d = false
  reached : ∀ x, b.isReachable x = true ↔ x = d ∨ a.isReachable x = true
  visits : ∀ n, b.visits n = a.visits n
  notes : ∀ n, b.note? n = a.note? n
  carries : t.Carries b

theorem marks_modify {t : Tree} {a : Annotations} {d : NodeId} {e : Entry} {s : DefState}
    (h : t.Carries a) (he : a.get? d = some e) (hs : e.state = some s)
    (hu : s.unreachable = true) :
    Marks t d a (a.modify d fun e => { e with state := some { s with unreachable := false } }) := by
  have hKept := fun n => Annotations.visits_modify he
    (f := fun e => { e with state := some { s with unreachable := false } }) rfl n
  refine ⟨?_, ?_, hKept, ?_, h.modify he (fun _ => ⟨_, rfl⟩) fun n => hKept n ▸ h.visits_lt n⟩
  · simp [Annotations.isReachable, Annotations.state?, he, hs, hu]
  · intro x
    by_cases hx : d = x
    · subst hx
      simp [Annotations.isReachable, Annotations.state?, Annotations.get?_modify_self he]
    · simp [Annotations.isReachable, Annotations.state?, a.get?_modify_of_ne hx, Ne.symm hx]
  · exact Annotations.note?_modify he rfl

/-- The walk of a definition at its first use. -/
theorem Walked.enter {t : Tree} {options : Options} {busy fresh : List NodeId} {d : NodeId}
    {a b c : Annotations} (hm : Marks t d a b) (hLive : Live t options (.definition d))
    (h : Walked t options [] (subtree t.partsOf d) fresh b c) :
    Walked t options busy [] (d :: fresh) a c := by
  have hTrail : t.trail [] (d :: fresh) = t.trail (subtree t.partsOf d) fresh := rfl
  have hMarked : b.isReachable d = true := (hm.reached d).mpr (Or.inl rfl)
  have hOld : ∀ {x}, b.isReachable x = false → a.isReachable x = false := by
    intro x hx
    rw [Bool.eq_false_iff] at hx ⊢
    exact fun ha => hx ((hm.reached x).mpr (Or.inr ha))
  refine ⟨?_, ?_, ?_, ?_, ?_, ?_, ?_, h.carries⟩
  · refine List.nodup_cons.mpr ⟨fun hd => ?_, h.nodup⟩
    rw [h.new d hd] at hMarked
    cases hMarked
  · intro x hx
    rcases List.mem_cons.mp hx with rfl | hx
    · exact hm.new
    · exact hOld (h.new x hx)
  · intro x
    rw [h.reached, hm.reached, List.mem_cons]
    grind
  · intro n
    rw [h.visits, hm.visits, hTrail]
  · intro n _ hn
    rw [h.notes n List.not_mem_nil (hTrail ▸ hn), hm.notes]
  · intro n hn _
    exact h.settled n (hTrail ▸ hn) List.not_mem_nil
  · intro x hx
    rcases List.mem_cons.mp hx with rfl | hx
    · exact hLive
    · exact h.live x hx

/-! ### How many definitions are left -/

namespace Tree

def unreached (t : Tree) (a : Annotations) : Nat :=
  (t.definitions.map Prod.fst).countP fun d => !a.isReachable d

theorem countP_unreached_le {a b : Annotations}
    (h : ∀ d, a.isReachable d = true → b.isReachable d = true) (ids : List NodeId) :
    (ids.countP fun d => !b.isReachable d) ≤ ids.countP fun d => !a.isReachable d := by
  refine List.countP_mono_left fun d _ hb => ?_
  rw [Bool.not_eq_true'] at hb ⊢
  rw [Bool.eq_false_iff] at hb ⊢
  exact fun ha => hb (h d ha)

theorem unreached_le (t : Tree) {a b : Annotations}
    (h : ∀ d, a.isReachable d = true → b.isReachable d = true) : t.unreached b ≤ t.unreached a :=
  countP_unreached_le h _

/-- A first use leaves fewer definitions. -/
theorem unreached_lt {t : Tree} {a b : Annotations} {d : NodeId} {e : Definition}
    (hm : Marks t d a b) (hd : t.kind? d = some (.definition e)) :
    t.unreached b < t.unreached a := by
  have hMem : d ∈ t.definitions.map Prod.fst :=
    List.mem_map.mpr ⟨(d, e), mem_definitions_iff.mpr hd, rfl⟩
  obtain ⟨before, after, hSplit⟩ := List.append_of_mem hMem
  have hLe := countP_unreached_le fun x hx => (hm.reached x).mpr (Or.inr hx)
  have hBefore := hLe before
  have hAfter := hLe after
  have hMarked : b.isReachable d = true := (hm.reached d).mpr (Or.inl rfl)
  rw [unreached, unreached, hSplit, List.countP_append, List.countP_append, List.countP_cons,
    List.countP_cons, hMarked, hm.new]
  simp only [Bool.not_true, Bool.not_false, if_true, Bool.false_eq_true, if_false]
  omega

end Tree

end StageScript

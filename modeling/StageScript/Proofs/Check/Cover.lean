import Mathlib.Data.List.Perm.Basic
import StageScript.Proofs.Tree.Descent
import StageScript.Proofs.Tree.Place

/-!
# What the checks go through

The checks go from a block to its statements and to the bodies of what it declares, and from
any other node but a definition to its parts.  In a well-formed tree this gives each node
that is not a definition exactly once (`checked_branches`, `Stands.mem_checked`).
-/

namespace StageScript

theorem NameTable.ids_perm (table : NameTable) :
    table.ids.Perm (table.entries.map Prod.snd) :=
  List.mergeSort_perm _ _

namespace Tree

def checkedOf (t : Tree) : NodeKind → List NodeId
  | .block stmts table => stmts ++ table.ids.filterMap t.bodyOf?
  | .definition _ => []
  | k => k.children

theorem checkedOf_definition {t : Tree} {k : NodeKind} (h : k.isDefinition = true) :
    t.checkedOf k = [] := by
  cases k with
  | definition d => rfl
  | _ => cases h

theorem checkedOf_eq_children {t : Tree} {k : NodeKind} (hd : k.isDefinition = false)
    (hb : ∀ stmts table, k ≠ .block stmts table) : t.checkedOf k = k.children := by
  cases k with
  | definition d => cases hd
  | block stmts table => exact absurd rfl (hb stmts table)
  | _ => rfl

def checked (t : Tree) (id : NodeId) : List NodeId := ((t.kind? id).map t.checkedOf).getD []

theorem checked_of_kind? {t : Tree} {id : NodeId} {k : NodeKind} (h : t.kind? id = some k) :
    t.checked id = t.checkedOf k := by
  rw [checked, h]
  rfl

theorem mem_checked_iff {t : Tree} {i c : NodeId} :
    c ∈ t.checked i ↔ ∃ k, t.kind? i = some k ∧ c ∈ t.checkedOf k := by
  rw [checked]
  cases t.kind? i <;> simp

/-- A node is gone to as a part of a node, or as the body of a definition of a block. -/
theorem mem_checkedOf_iff {t : Tree} {k : NodeKind} {c : NodeId} :
    c ∈ t.checkedOf k ↔ (k.isDefinition = false ∧ c ∈ k.children) ∨
      ∃ d ∈ k.entries.map Prod.snd, t.bodyOf? d = some c := by
  cases k with
  | block stmts table =>
    simp only [checkedOf, NodeKind.isDefinition, NodeKind.children, NodeKind.entries,
      List.mem_append, List.mem_filterMap, table.ids_perm.mem_iff, true_and]
  | _ => simp [checkedOf, NodeKind.isDefinition, NodeKind.entries]

namespace WellFormed

variable {t : Tree}

theorem checked_falls (h : t.WellFormed) : Falls t.checked := by
  intro i c hc
  obtain ⟨k, hk, hc⟩ := mem_checked_iff.mp hc
  rcases mem_checkedOf_iff.mp hc with ⟨-, hc⟩ | ⟨d, hd, hb⟩
  · exact h.child_lt hk hc
  · exact Nat.lt_trans (h.body_lt hb) (h.entry_lt hk hd)

theorem checkedOf_nodup (h : t.WellFormed) {i : NodeId} {k : NodeKind} (hk : t.kind? i = some k) :
    (t.checkedOf k).Nodup := by
  cases k with
  | block stmts table =>
    have hIds : table.ids.Nodup := table.ids_perm.nodup_iff.mpr (h.entries_nodup hk)
    rw [checkedOf, List.nodup_append']
    refine ⟨h.children_nodup hk, hIds.filterMap fun d e b hd he => h.body_unique hd he, ?_⟩
    intro b hs hb
    obtain ⟨d, -, hd⟩ := List.mem_filterMap.mp hb
    exact h.body_not_part hk rfl hs hd
  | definition d => exact List.nodup_nil
  | _ => exact h.children_nodup hk

theorem checked_branches (h : t.WellFormed) : Branches t.checked where
  falls := h.checked_falls
  nodup := by
    intro i
    cases hk : t.kind? i with
    | none => simp [checked, hk]
    | some k => exact checked_of_kind? hk ▸ h.checkedOf_nodup hk
  unique := by
    intro i j c hi hj
    obtain ⟨k, hk, hi⟩ := mem_checked_iff.mp hi
    obtain ⟨l, hl, hj⟩ := mem_checked_iff.mp hj
    rcases mem_checkedOf_iff.mp hi with ⟨hn, hc⟩ | ⟨d, hd, hb⟩
    · rcases mem_checkedOf_iff.mp hj with ⟨-, hc'⟩ | ⟨e, -, hb'⟩
      · exact h.part_unique hk hl hc hc'
      · exact absurd hb' (h.body_not_part hk hn hc)
    · rcases mem_checkedOf_iff.mp hj with ⟨hn', hc'⟩ | ⟨e, he, hb'⟩
      · exact absurd hb (h.body_not_part hl hn' hc')
      · rw [← h.body_unique hb hb'] at he
        exact h.entry_unique hk hl hd he

end WellFormed

end Tree

/-- The checks go through every node: a definition is declared by a block they go through,
and any other node they go through itself. -/
theorem Stands.checked {t : Tree} (h : t.WellFormed) {place : Place} {id : NodeId}
    (hs : Stands t place id) {k : NodeKind} (hk : t.kind? id = some k) :
    (k.isDefinition = false → id ∈ subtree t.checked t.root) ∧
    (k.isDefinition = true → ∃ b ∈ subtree t.checked t.root, ∃ l,
      t.kind? b = some l ∧ id ∈ l.entries.map Prod.snd) := by
  have hFalls := h.checked_falls
  induction hs generalizing k with
  | root =>
    obtain ⟨stmts, table, hr⟩ := h.root_block
    rw [hr] at hk
    cases hk
    exact ⟨fun _ => hFalls.self_mem _, fun hkd => by cases hkd⟩
  | @part place n c l hn hl hc ih =>
    obtain ⟨ihPlain, ihDefinition⟩ := ih hl
    cases hd : l.isDefinition with
    | false =>
      refine ⟨fun _ => hFalls.kid_mem ?_ (ihPlain hd), fun hkd => ⟨n, ihPlain hd, l, hl, ?_⟩⟩
      · exact Tree.mem_checked_iff.mpr ⟨l, hl, Tree.mem_checkedOf_iff.mpr (Or.inl ⟨hd, hc⟩)⟩
      · cases k with
        | definition d => exact h.child_entry hl hc hk
        | _ => cases hkd
    | true =>
      obtain ⟨b, hb, m, hm, he⟩ := ihDefinition hd
      cases l with
      | definition d =>
        have hBody : d.body? = some c := by simpa [NodeKind.children] using hc
        obtain ⟨stmts, table, hBlock⟩ := h.body_block hl hBody
        rw [hBlock] at hk
        cases hk
        refine ⟨fun _ => hFalls.kid_mem (Tree.mem_checked_iff.mpr ⟨m, hm, ?_⟩) hb,
          fun hkd => by cases hkd⟩
        exact Tree.mem_checkedOf_iff.mpr
          (Or.inr ⟨n, he, (Tree.bodyOf?_of_kind? hl).trans hBody⟩)
      | _ => cases hd
  | @entry place b d stmts table hb hl he ih =>
    obtain ⟨e, hd⟩ := h.entry_definition hl he
    rw [hd] at hk
    cases hk
    exact ⟨fun hkd => (by cases hkd), fun _ => ⟨b, (ih hl).1 rfl, _, hl, he⟩⟩

theorem Stands.mem_checked {t : Tree} (h : t.WellFormed) {place : Place} {id : NodeId}
    (hs : Stands t place id) {k : NodeKind} (hk : t.kind? id = some k)
    (hd : k.isDefinition = false) : id ∈ subtree t.checked t.root :=
  (hs.checked h hk).1 hd

end StageScript

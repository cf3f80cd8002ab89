import StageScript.Proofs.Tree.Shape

/-!
# Owners

In a well-formed tree every node has one owner: the node it is a part of, or the block
whose table declares it.  Owners come later than what they own, so going from a node to its
owner ends at the root.
-/

namespace StageScript

theorem NodeKind.mem_children_of_body? {d : Definition} {b : NodeId} (h : d.body? = some b) :
    b ∈ (NodeKind.definition d).children := by
  simp [NodeKind.children, h]

namespace Tree

def bodyOf? (t : Tree) (id : NodeId) : Option NodeId :=
  match t.kind? id with
  | some (.definition d) => d.body?
  | _ => none

theorem bodyOf?_eq_some_iff {t : Tree} {id b : NodeId} :
    t.bodyOf? id = some b ↔ ∃ d, t.kind? id = some (.definition d) ∧ d.body? = some b := by
  unfold bodyOf?
  split
  · rename_i d hd
    simp [hd]
  · rename_i hn
    refine ⟨nofun, ?_⟩
    rintro ⟨d, hd, -⟩
    exact absurd hd (hn d)

theorem bodyOf?_of_kind? {t : Tree} {id : NodeId} {d : Definition}
    (h : t.kind? id = some (.definition d)) : t.bodyOf? id = d.body? := by
  rw [bodyOf?, h]

/-- In a list without repetition, put together from all nodes, each item comes from one
node. -/
theorem eq_of_mem_flatMap {α : Type} {t : Tree} {f : Node → List α}
    (h : (t.nodes.toList.flatMap f).Nodup) {i j : NodeId} {m n : Node} {a : α}
    (hi : t.get? i = some m) (hj : t.get? j = some n) (ha : a ∈ f m) (hb : a ∈ f n) : i = j := by
  have hPair := List.pairwise_iff_getElem.mp (List.nodup_flatMap.mp h).2
  obtain ⟨hil, rfl⟩ := Array.getElem?_eq_some_iff.mp hi
  obtain ⟨hjl, rfl⟩ := Array.getElem?_eq_some_iff.mp hj
  rcases Nat.lt_trichotomy i j with hlt | heq | hgt
  · exact absurd hb (hPair i j hil hjl hlt ha)
  · exact heq
  · exact absurd ha (hPair j i hjl hil hgt hb)

theorem nodup_of_flatMap {α : Type} {t : Tree} {f : Node → List α}
    (h : (t.nodes.toList.flatMap f).Nodup) {i : NodeId} {m : Node} (hi : t.get? i = some m) :
    (f m).Nodup := by
  refine (List.nodup_flatMap.mp h).1 m ?_
  rw [Array.mem_toList_iff, Array.mem_iff_getElem?]
  exact ⟨i, hi⟩

namespace WellFormed

variable {t : Tree} {i j c : NodeId} {k l : NodeKind}

theorem children_nodup (h : t.WellFormed) (hk : t.kind? i = some k) : k.children.Nodup := by
  obtain ⟨node, hn, rfl⟩ := kind?_eq_some_iff.mp hk
  exact nodup_of_flatMap (f := fun node => node.kind.children) h.parts_nodup hn

/-- A node is a part of one node only. -/
theorem part_unique (h : t.WellFormed) (hk : t.kind? i = some k) (hl : t.kind? j = some l)
    (hc : c ∈ k.children) (hd : c ∈ l.children) : i = j := by
  obtain ⟨m, hm, rfl⟩ := kind?_eq_some_iff.mp hk
  obtain ⟨n, hn, rfl⟩ := kind?_eq_some_iff.mp hl
  exact eq_of_mem_flatMap (f := fun node => node.kind.children) h.parts_nodup hm hn hc hd

theorem entries_nodup (h : t.WellFormed) (hk : t.kind? i = some k) :
    (k.entries.map Prod.snd).Nodup := by
  obtain ⟨node, hn, rfl⟩ := kind?_eq_some_iff.mp hk
  have hd := h.declared_nodup
  rw [Tree.declared, List.map_flatMap] at hd
  exact nodup_of_flatMap (f := fun node => node.kind.entries.map Prod.snd) hd hn

/-- A definition is declared by one block only. -/
theorem entry_unique (h : t.WellFormed) (hk : t.kind? i = some k) (hl : t.kind? j = some l)
    (hc : c ∈ k.entries.map Prod.snd) (hd : c ∈ l.entries.map Prod.snd) : i = j := by
  obtain ⟨m, hm, rfl⟩ := kind?_eq_some_iff.mp hk
  obtain ⟨n, hn, rfl⟩ := kind?_eq_some_iff.mp hl
  have hDecl := h.declared_nodup
  rw [Tree.declared, List.map_flatMap] at hDecl
  exact eq_of_mem_flatMap (f := fun node => node.kind.entries.map Prod.snd) hDecl hm hn hc hd

theorem child_lt (h : t.WellFormed) (hk : t.kind? i = some k) (hc : c ∈ k.children) : c < i :=
  (h.fits i k hk).child_lt c hc

theorem entry_lt (h : t.WellFormed) (hk : t.kind? i = some k) (hc : c ∈ k.entries.map Prod.snd) :
    c < i := by
  obtain ⟨e, he, rfl⟩ := List.mem_map.mp hc
  exact (h.fits i k hk).entry_lt e he

theorem le_root_of_lt (h : t.WellFormed) (hi : i < t.size) : i ≤ t.root := by
  rw [← h.root_last] at hi
  exact Nat.le_of_lt_succ hi

theorem le_root (h : t.WellFormed) (hk : t.kind? i = some k) : i ≤ t.root :=
  h.le_root_of_lt (lt_size_of_kind? hk)

theorem child_lt_root (h : t.WellFormed) (hk : t.kind? i = some k) (hc : c ∈ k.children) :
    c < t.root :=
  Nat.lt_of_lt_of_le (h.child_lt hk hc) (h.le_root hk)

theorem entry_lt_root (h : t.WellFormed) (hk : t.kind? i = some k)
    (hc : c ∈ k.entries.map Prod.snd) : c < t.root :=
  Nat.lt_of_lt_of_le (h.entry_lt hk hc) (h.le_root hk)

theorem entry_definition (h : t.WellFormed) (hk : t.kind? i = some k)
    (hc : c ∈ k.entries.map Prod.snd) : ∃ d, t.kind? c = some (.definition d) := by
  obtain ⟨e, he, rfl⟩ := List.mem_map.mp hc
  obtain ⟨d, hd, -⟩ := h.declared_name e (mem_declared_iff.mpr ⟨i, k, hk, he⟩)
  exact ⟨d, hd⟩

/-- A part that is a definition is declared by what it is a part of. -/
theorem child_entry (h : t.WellFormed) (hk : t.kind? i = some k) (hc : c ∈ k.children)
    {d : Definition} (hd : t.kind? c = some (.definition d)) : c ∈ k.entries.map Prod.snd :=
  ((h.fits i k hk).child_var c hc d hd).2

theorem child_variable (h : t.WellFormed) (hk : t.kind? i = some k) (hc : c ∈ k.children)
    {d : Definition} (hd : t.kind? c = some (.definition d)) : d.isVariable = true :=
  ((h.fits i k hk).child_var c hc d hd).1

/-- The body of a callable is a block. -/
theorem body_block (h : t.WellFormed) {d : Definition} {b : NodeId}
    (hk : t.kind? i = some (.definition d)) (hb : d.body? = some b) :
    ∃ stmts table, t.kind? b = some (.block stmts table) := by
  obtain ⟨stmts, table, hBlock, -⟩ := (h.fits i _ hk).body d b rfl hb
  exact ⟨stmts, table, hBlock⟩

/-- A body is a part of its definition only. -/
theorem body_unique (h : t.WellFormed) {d e b : NodeId} (hd : t.bodyOf? d = some b)
    (he : t.bodyOf? e = some b) : d = e := by
  obtain ⟨x, hx, hbx⟩ := bodyOf?_eq_some_iff.mp hd
  obtain ⟨y, hy, hby⟩ := bodyOf?_eq_some_iff.mp he
  exact h.part_unique hx hy (NodeKind.mem_children_of_body? hbx) (NodeKind.mem_children_of_body? hby)

/-- A body is no part of anything but a definition. -/
theorem body_not_part (h : t.WellFormed) {i d b : NodeId} {k : NodeKind} (hk : t.kind? i = some k)
    (hn : k.isDefinition = false) (hc : b ∈ k.children) : t.bodyOf? d ≠ some b := by
  intro hb
  obtain ⟨x, hx, hbx⟩ := bodyOf?_eq_some_iff.mp hb
  obtain rfl := h.part_unique hk hx hc (NodeKind.mem_children_of_body? hbx)
  rw [hk] at hx
  cases hx
  cases hn

theorem body_lt (h : t.WellFormed) {d b : NodeId} (hb : t.bodyOf? d = some b) : b < d := by
  obtain ⟨x, hx, hbx⟩ := bodyOf?_eq_some_iff.mp hb
  exact h.child_lt hx (NodeKind.mem_children_of_body? hbx)

theorem exists_part_of (h : t.WellFormed) (hk : t.kind? c = some k) (hd : k.isDefinition = false)
    (hr : c ≠ t.root) : ∃ i l, t.kind? i = some l ∧ c ∈ l.children :=
  mem_parts_iff.mp (h.mem_parts c k hk hd hr)

theorem exists_entry_of (h : t.WellFormed) {d : Definition}
    (hk : t.kind? c = some (.definition d)) :
    ∃ i l, t.kind? i = some l ∧ c ∈ l.entries.map Prod.snd := by
  obtain ⟨e, he, rfl⟩ := List.mem_map.mp (h.mem_declared c d hk)
  obtain ⟨i, l, hl, hm⟩ := mem_declared_iff.mp he
  exact ⟨i, l, hl, List.mem_map.mpr ⟨e, hm, rfl⟩⟩

end WellFormed

end Tree

/-! ### Down to a depth -/

/-- What is read down to a depth does not depend on the depth, once all smaller numbers are
within it. -/
theorem eq_of_smaller {α : Type} {f : Nat → NodeId → α}
    (h : ∀ d e id, (∀ c < id, f d c = f e c) → f (d + 1) id = f (e + 1) id) {d : Nat} :
    ∀ {e id}, id < d → id < e → f d id = f e id := by
  induction d with
  | zero => exact fun hd => absurd hd (Nat.not_lt_zero _)
  | succ d ih =>
    intro e id hd he
    obtain ⟨e, rfl⟩ := Nat.exists_eq_succ_of_ne_zero (Nat.ne_zero_of_lt he)
    refine h d e id fun c hc => ?_
    exact ih (Nat.lt_of_lt_of_le hc (Nat.le_of_lt_succ hd))
      (Nat.lt_of_lt_of_le hc (Nat.le_of_lt_succ he))

end StageScript

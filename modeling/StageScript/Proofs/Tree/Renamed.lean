import Mathlib
import StageScript.Proofs.Tree.Place
import StageScript.Proofs.Tree.Renumber

/-!
# Trees that differ in their numbers

`Tree.Renamed f t u` says that the trees hold the same script: the node `id` of the first is the
node `f id` of the second, with the same parts and the same names for the same definitions.  Names
mean the same in both: tables and chains of tables that differ in their numbers give the same
definition for a name (`NameTable.Renamed.find?`, `Chain.Renamed.declaring?`).
-/

namespace StageScript

/-! ### What other numbers leave -/

section Renumber

variable {f : NodeId → NodeId}

namespace Definition

@[simp] theorem body?_renumber (d : Definition) : (d.renumber f).body? = d.body?.map f := by
  cases d <;> rfl

@[simp] theorem arity_renumber (d : Definition) : (d.renumber f).arity = d.arity := by
  cases d <;> simp [renumber, arity]

@[simp] theorem isVariable_renumber (d : Definition) :
    (d.renumber f).isVariable = d.isVariable := by
  cases d <;> rfl

@[simp] theorem isAssignable_renumber (d : Definition) :
    (d.renumber f).isAssignable = d.isAssignable := by
  cases d <;> rfl

@[simp] theorem isHost_renumber (d : Definition) : (d.renumber f).isHost = d.isHost := by
  cases d <;> rfl

@[simp] theorem isRoutine_renumber (d : Definition) : (d.renumber f).isRoutine = d.isRoutine := by
  cases d <;> rfl

theorem renumber_renumber (g : NodeId → NodeId) (d : Definition) :
    (d.renumber f).renumber g = d.renumber (g ∘ f) := by
  cases d <;> simp [renumber]

theorem renumber_id (d : Definition) : d.renumber id = d := by
  cases d <;> simp [renumber]

end Definition

namespace NameTable

theorem find?_renumber (t : NameTable) (name : String) :
    (t.renumber f).find? name = (t.find? name).map f := by
  obtain ⟨es⟩ := t
  rw [find?, find?, renumber]
  induction es with
  | nil => rfl
  | cons e es ih =>
    rw [List.map_cons, List.lookup_cons, List.lookup_cons]
    split
    · rfl
    · exact ih

/-- In a table with each name once, the order does not matter. -/
theorem find?_of_perm {t u : NameTable} (h : t.entries.Perm u.entries)
    (hNodup : (t.entries.map Prod.fst).Nodup) (name : String) : u.find? name = t.find? name := by
  obtain ⟨es⟩ := t
  obtain ⟨fs⟩ := u
  dsimp only at h hNodup
  rw [find?, find?]
  induction h with
  | nil => rfl
  | cons e _ ih =>
    rw [List.lookup_cons, List.lookup_cons, ih (List.nodup_cons.mp hNodup).2]
  | swap e e' es =>
    have hNe : e'.1 ≠ e.1 := by
      have hMem : e'.1 ∉ e.1 :: es.map Prod.fst := (List.nodup_cons.mp hNodup).1
      exact List.ne_of_not_mem_cons hMem
    grind
  | trans hFirst _ ih ih' =>
    rw [ih' ((hFirst.map Prod.fst).nodup hNodup), ih hNodup]

theorem renumber_renumber (g : NodeId → NodeId) (t : NameTable) :
    (t.renumber f).renumber g = t.renumber (g ∘ f) := by
  simp [renumber]

theorem renumber_id (t : NameTable) : t.renumber id = t := by
  simp [renumber]

end NameTable

namespace NodeKind

@[simp] theorem children_renumber (k : NodeKind) :
    (k.renumber f).children = k.children.map f := by
  cases k <;> simp [renumber, children, Option.toList_map]

theorem renumber_renumber (g : NodeId → NodeId) (k : NodeKind) :
    (k.renumber f).renumber g = k.renumber (g ∘ f) := by
  cases k <;> simp [renumber, Definition.renumber_renumber, NameTable.renumber_renumber]

theorem renumber_id (k : NodeKind) : k.renumber id = k := by
  cases k <;> simp [renumber, Definition.renumber_id, NameTable.renumber_id]

theorem Rearranged.symm {k l : NodeKind} (h : k.Rearranged l) : l.Rearranged k := by
  cases h with
  | same => exact .same _
  | block stmts h => exact .block stmts h.symm

theorem Rearranged.renumber {k l : NodeKind} (h : k.Rearranged l) :
    (k.renumber f).Rearranged (l.renumber f) := by
  cases h with
  | same => exact .same _
  | block stmts h => exact .block _ (h.map _)

/-- Only blocks can be in another order. -/
theorem Rearranged.of_renumber {k l : NodeKind} (h : (k.renumber f).Rearranged l) :
    (∃ stmts table table', k = .block stmts table ∧ l = .block (stmts.map f) table' ∧
      (table.renumber f).entries.Perm table'.entries) ∨
    ((∀ stmts table, k ≠ .block stmts table) ∧ l = k.renumber f) := by
  cases k with
  | block stmts table =>
    cases h with
    | same => exact .inl ⟨stmts, table, _, rfl, rfl, .refl _⟩
    | block _ h => exact .inl ⟨stmts, table, _, rfl, rfl, h⟩
  | _ =>
    cases h
    exact .inr ⟨fun _ _ h => (by cases h), rfl⟩

end NodeKind

end Renumber

/-! ### Tables and chains -/

/-- The table has each name once, and the other one has the same names for the other numbers. -/
structure NameTable.Renamed (f : NodeId → NodeId) (t u : NameTable) : Prop where
  nodup : (t.entries.map Prod.fst).Nodup
  perm : (t.renumber f).entries.Perm u.entries

theorem NameTable.Renamed.find? {f : NodeId → NodeId} {t u : NameTable} (h : t.Renamed f u)
    (name : String) : u.find? name = (t.find? name).map f := by
  have hNames : ((t.renumber f).entries.map Prod.fst).Nodup := by
    rw [renumber, List.map_map]
    exact h.nodup
  rw [find?_of_perm h.perm hNames, find?_renumber]

namespace Chain

def Renamed (f : NodeId → NodeId) (c d : Chain) : Prop := List.Forall₂ (NameTable.Renamed f) c d

namespace Renamed

variable {f : NodeId → NodeId} {c d : Chain}

theorem declaring? (h : c.Renamed f d) (name : String) :
    Option.Rel (fun p q => Renamed f p.1 q.1 ∧ q.2 = f p.2) (c.declaring? name)
      (d.declaring? name) := by
  induction h with
  | nil => exact .none
  | @cons t u c d hTable hOuter ih =>
    rw [Chain.declaring?, Chain.declaring?, hTable.find? name]
    cases t.find? name with
    | none => exact ih
    | some id => exact .some ⟨.cons hTable hOuter, rfl⟩

theorem find? (h : c.Renamed f d) (name : String) : d.find? name = (c.find? name).map f := by
  rw [Chain.find?_eq_declaring?, Chain.find?_eq_declaring?]
  have hRel := h.declaring? name
  generalize c.declaring? name = p at hRel ⊢
  generalize d.declaring? name = q at hRel ⊢
  cases hRel with
  | none => rfl
  | some hRel => rw [Option.map_some, Option.map_some, Option.map_some, hRel.2]

end Renamed

end Chain

/-! ### Trees -/

structure Node.Renamed (f : NodeId → NodeId) (n m : Node) : Prop where
  kind : (n.kind.renumber f).Rearranged m.kind
  start : m.span.start = n.span.start

/-- The node `id` of the first tree is the node `f id` of the second. -/
structure Tree.Renamed (f : Equiv.Perm NodeId) (t u : Tree) : Prop where
  root : u.root = f t.root
  size : u.size = t.size
  nodes : ∀ id, Option.Rel (Node.Renamed f) (t.get? id) (u.get? (f id))

theorem Node.Renamed.symm {f : Equiv.Perm NodeId} {n m : Node} (h : n.Renamed f m) :
    m.Renamed f.symm n where
  kind := by
    have hBack := h.kind.symm.renumber (f := f.symm)
    rwa [NodeKind.renumber_renumber, Equiv.symm_comp_self, NodeKind.renumber_id] at hBack
  start := h.start.symm

namespace Tree.Renamed

variable {f : Equiv.Perm NodeId} {t u : Tree}

theorem symm (h : t.Renamed f u) : u.Renamed f.symm t where
  root := by rw [h.root, f.symm_apply_apply]
  size := h.size.symm
  nodes id := by
    have hNode := h.nodes (f.symm id)
    rw [f.apply_symm_apply] at hNode
    generalize t.get? (f.symm id) = n at hNode ⊢
    generalize u.get? id = m at hNode ⊢
    cases hNode with
    | none => exact .none
    | some hNode => exact .some hNode.symm

theorem get? (h : t.Renamed f u) {id : NodeId} {n : Node} (hn : t.get? id = some n) :
    ∃ m, u.get? (f id) = some m ∧ n.Renamed f m := by
  have hNode := h.nodes id
  rw [hn] at hNode
  generalize u.get? (f id) = m at hNode ⊢
  cases hNode with
  | some hNode => exact ⟨_, rfl, hNode⟩

theorem kind? (h : t.Renamed f u) {id : NodeId} {k : NodeKind} (hk : t.kind? id = some k) :
    ∃ l, u.kind? (f id) = some l ∧ (k.renumber f).Rearranged l := by
  obtain ⟨n, hn, rfl⟩ := kind?_eq_some_iff.mp hk
  obtain ⟨m, hm, hNode⟩ := h.get? hn
  exact ⟨m.kind, kind?_eq_some_iff.mpr ⟨m, hm, rfl⟩, hNode.kind⟩

theorem kind?_definition (h : t.Renamed f u) {id : NodeId} {d : Definition}
    (hk : t.kind? id = some (.definition d)) :
    u.kind? (f id) = some (.definition (d.renumber f)) := by
  obtain ⟨l, hl, hKind⟩ := h.kind? hk
  cases hKind
  exact hl

theorem kind?_block (h : t.Renamed f u) (hTree : t.WellFormed) {id : NodeId} {stmts : List NodeId}
    {table : NameTable} (hk : t.kind? id = some (.block stmts table)) :
    ∃ table', u.kind? (f id) = some (.block (stmts.map f) table') ∧ table.Renamed f table' := by
  have hNodup : (table.entries.map Prod.fst).Nodup := (hTree.fits id _ hk).names_nodup
  obtain ⟨l, hl, hKind⟩ := h.kind? hk
  cases hKind with
  | same => exact ⟨_, hl, hNodup, .refl _⟩
  | block _ hPerm => exact ⟨_, hl, hNodup, hPerm⟩

/-- The trees have equally many definitions. -/
theorem length_definitions (h : t.Renamed f u) : u.definitions.length = t.definitions.length := by
  have hNodup : ∀ v : Tree, v.definitions.Nodup := fun v =>
    v.definitions_pairwise.imp fun {p q} hlt he => Nat.ne_of_lt hlt (congrArg Prod.fst he)
  have hLe : ∀ {g : Equiv.Perm NodeId} {v w : Tree}, v.Renamed g w →
      v.definitions.length ≤ w.definitions.length := by
    intro g v w hvw
    have hInj : Function.Injective fun p : NodeId × Definition => (g p.1, p.2.renumber g) := by
      rintro ⟨i, d⟩ ⟨j, e⟩ he
      obtain ⟨hi, hd⟩ := Prod.mk.inj he
      have hBack := congrArg (Definition.renumber g.symm) hd
      rw [Definition.renumber_renumber, Definition.renumber_renumber, Equiv.symm_comp_self,
        Definition.renumber_id, Definition.renumber_id] at hBack
      exact Prod.ext (g.injective hi) hBack
    rw [← List.length_map (fun p : NodeId × Definition => (g p.1, p.2.renumber g))]
    refine (List.subperm_of_subset ((hNodup v).map hInj) ?_).length_le
    rintro _ hp
    obtain ⟨⟨i, d⟩, hd, rfl⟩ := List.mem_map.mp hp
    exact mem_definitions_iff.mpr (hvw.kind?_definition (mem_definitions_iff.mp hd))
  exact Nat.le_antisymm (hLe h.symm) (hLe h)

end Tree.Renamed

end StageScript

import StageScript.Analysis.Annotations
import StageScript.Options
import StageScript.Proofs.Tree.Descent
import StageScript.Proofs.Tree.Place

/-!
# What a script can reach

`Live` is the least set of nodes and definitions that holds the root block and the
definitions started by the host, the parts of each of its nodes, the definitions that its
nodes refer to, and the bodies of its definitions.  A node that is not a definition is live
as a node; a definition is live as a definition when something refers to it, and as a node
when it is a statement of a live block.
-/

namespace StageScript

def NodeKind.used? : NodeKind → Option String
  | ref name => some name
  | call name _ => some name
  | callStmt name _ => some name
  | target name _ => some name
  | varInit name _ => some name
  | _ => none

inductive Mark where
  | node (id : NodeId)
  | definition (id : NodeId)

/-- What can be reached from the root block and from the entry routines. -/
inductive Live (t : Tree) (options : Options) : Mark → Prop
  | root : Live t options (.node t.root)
  | entry {stmts : List NodeId} {table : NameTable} {name : String} {d : NodeId} :
      t.kind? t.root = some (.block stmts table) → name ∈ options.entryRoutines →
      table.find? name = some d → Live t options (.definition d)
  | part {n c : NodeId} {k : NodeKind} : Live t options (.node n) → t.kind? n = some k →
      k.isDefinition = false → c ∈ k.children → Live t options (.node c)
  | used {n d : NodeId} {k : NodeKind} {place : Place} {name : String} :
      Live t options (.node n) → t.kind? n = some k → k.used? = some name → Stands t place n →
      place.chain.find? name = some d → Live t options (.definition d)
  | body {d b : NodeId} {e : Definition} : Live t options (.definition d) →
      t.kind? d = some (.definition e) → e.body? = some b → Live t options (.node b)

/-- A definition that a node makes an analysis reach.  The root block does so for the entry
routines. -/
inductive Refers (t : Tree) (options : Options) : NodeId → NodeId → Prop
  | entry {stmts : List NodeId} {table : NameTable} {name : String} {d : NodeId} :
      t.kind? t.root = some (.block stmts table) → name ∈ options.entryRoutines →
      table.find? name = some d → Refers t options t.root d
  | used {n d : NodeId} {k : NodeKind} {place : Place} {name : String} : t.kind? n = some k →
      k.used? = some name → Stands t place n → place.chain.find? name = some d → Refers t options n d

def Tree.partsOf (t : Tree) (id : NodeId) : List NodeId :=
  ((t.kind? id).map NodeKind.children).getD []

namespace Tree

variable {t : Tree}

theorem partsOf_of_kind? {id : NodeId} {k : NodeKind} (h : t.kind? id = some k) :
    t.partsOf id = k.children := by
  rw [partsOf, h]
  rfl

theorem mem_partsOf_iff {i c : NodeId} :
    c ∈ t.partsOf i ↔ ∃ k, t.kind? i = some k ∧ c ∈ k.children := by
  rw [partsOf]
  cases t.kind? i <;> simp

theorem WellFormed.partsOf_branches (h : t.WellFormed) : Branches t.partsOf where
  falls := by
    intro i c hc
    obtain ⟨k, hk, hc⟩ := mem_partsOf_iff.mp hc
    exact h.child_lt hk hc
  nodup := by
    intro i
    cases hk : t.kind? i with
    | none => simp [partsOf, hk]
    | some k => exact partsOf_of_kind? hk ▸ h.children_nodup hk
  unique := by
    intro i j c hi hj
    obtain ⟨k, hk, hi⟩ := mem_partsOf_iff.mp hi
    obtain ⟨l, hl, hj⟩ := mem_partsOf_iff.mp hj
    exact h.part_unique hk hl hi hj

theorem WellFormed.partsOf_falls (h : t.WellFormed) : Falls t.partsOf := h.partsOf_branches.falls

/-- A callable is a part of nothing: the definitions among the parts of a node are
variables. -/
theorem WellFormed.callable_not_part (h : t.WellFormed) {d b : NodeId}
    (hb : t.bodyOf? d = some b) (i : NodeId) : d ∉ t.partsOf i := by
  intro hi
  obtain ⟨k, hk, hc⟩ := mem_partsOf_iff.mp hi
  obtain ⟨e, he, hBody⟩ := bodyOf?_eq_some_iff.mp hb
  have hVar := h.child_variable hk hc he
  cases e <;> simp_all [Definition.isVariable, Definition.body?]

end Tree

/-- A node may be walked: it is live as a node or, for a callable, as a definition. -/
structure Alive (t : Tree) (options : Options) (id : NodeId) : Prop where
  node : ∀ k, t.kind? id = some k → k.isDefinition = false → Live t options (.node id)
  body : ∀ d b, t.kind? id = some (.definition d) → d.body? = some b →
    Live t options (.definition id)

namespace Alive

variable {t : Tree} {options : Options} {id : NodeId}

/-- A walk may start at the root. -/
theorem root (h : t.WellFormed) (options : Options) : Alive t options t.root := by
  refine ⟨fun _ _ _ => .root, fun d b hd _ => ?_⟩
  obtain ⟨stmts, table, hr⟩ := h.root_block
  rw [hr] at hd
  cases hd

theorem of_live_definition {d : Definition} (hd : t.kind? id = some (.definition d))
    (h : Live t options (.definition id)) : Alive t options id where
  node := by
    intro k hk hn
    rw [hd] at hk
    cases hk
    cases hn
  body _ _ _ _ := h

/-- The parts of what may be walked may be walked. -/
theorem part (hTree : t.WellFormed) (h : Alive t options id) {k : NodeKind}
    (hk : t.kind? id = some k) {c : NodeId} (hc : c ∈ k.children) : Alive t options c := by
  have hLive : Live t options (.node c) := by
    cases hn : k.isDefinition with
    | false => exact .part (h.node k hk hn) hk hn hc
    | true =>
      cases k with
      | definition d =>
        have hb : d.body? = some c := by simpa [NodeKind.children] using hc
        exact .body (h.body d c hk hb) hk hb
      | _ => cases hn
  refine ⟨fun _ _ _ => hLive, fun d b hd hb => ?_⟩
  have hBody : t.bodyOf? c = some b := (Tree.bodyOf?_of_kind? hd).trans hb
  exact absurd (Tree.mem_partsOf_iff.mpr ⟨k, hk, hc⟩) (hTree.callable_not_part hBody id)

/-- Everything below what may be walked may be walked. -/
theorem below (hTree : t.WellFormed) : ∀ {id}, Alive t options id →
    ∀ x ∈ subtree t.partsOf id, Alive t options x := by
  intro id
  induction id using Nat.strongRecOn with
  | ind id ih =>
    intro h x hx
    rcases hTree.partsOf_falls.mem_subtree_iff.mp hx with rfl | ⟨c, hc, hxc⟩
    · exact h
    · obtain ⟨k, hk, hc⟩ := Tree.mem_partsOf_iff.mp hc
      exact ih c (hTree.child_lt hk hc) (h.part hTree hk hc) x hxc

end Alive

end StageScript

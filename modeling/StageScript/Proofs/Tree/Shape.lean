import Mathlib.Data.List.Nodup
import StageScript.Tree.Basic

/-!
# The shape of trees

A tree keeps its nodes in one array, and nodes name each other by number.  This file says
when such an array is a tree in the proper sense (`Tree.WellFormed`): the root comes last,
every node is made of earlier nodes, every node but the root and the definitions is a part
of exactly one node, and every definition stands in exactly one table, under its own name.

* `Tree.parts`: the parts of all nodes, in the order of the nodes.
* `Tree.declared`: the entries of all tables, in the order of the nodes.
* `NodeKind.Fits`: what a node can say of the nodes before it.
* `Tree.Extends`: nodes are only added at the end, so what fits goes on to fit
  (`NodeKind.Fits.mono`).
-/

namespace StageScript

namespace NodeKind

def isDefinition : NodeKind → Bool
  | definition _ => true
  | _ => false

def entries : NodeKind → List (String × NodeId)
  | block _ table => table.entries
  | _ => []

@[simp] theorem isDefinition_definition (d : Definition) : (definition d).isDefinition = true := rfl

theorem isDefinition_eq_false_iff {k : NodeKind} :
    k.isDefinition = false ↔ ∀ d, k ≠ definition d := by
  cases k <;> simp [isDefinition]

end NodeKind

namespace Definition

/-- What a block takes over from what it is the body of: parameters, the loop variable, the
result. -/
def isGiven : Definition → Bool
  | param _ => true
  | loopVar _ => true
  | result => true
  | _ => false

end Definition

namespace Tree

/-! ### Looking up nodes -/

def kind? (t : Tree) (id : NodeId) : Option NodeKind := (t.get? id).map Node.kind

theorem kind?_eq_some_iff {t : Tree} {id : NodeId} {k : NodeKind} :
    t.kind? id = some k ↔ ∃ node, t.get? id = some node ∧ node.kind = k := by
  simp [kind?]

theorem lt_size_of_kind? {t : Tree} {id : NodeId} {k : NodeKind} (h : t.kind? id = some k) :
    id < t.size := by
  obtain ⟨node, hn, -⟩ := kind?_eq_some_iff.mp h
  exact (Array.getElem?_eq_some_iff.mp hn).choose

theorem exists_kind?_of_lt {t : Tree} {id : NodeId} (h : id < t.size) : ∃ k, t.kind? id = some k :=
  ⟨_, kind?_eq_some_iff.mpr ⟨t.nodes[id], Array.getElem?_eq_getElem h, rfl⟩⟩

theorem node_of_get? {t : Tree} {id : NodeId} {node : Node} (h : t.get? id = some node) :
    t.node id = .ok node := by
  rw [Tree.node, h]

theorem definition_of_kind? {t : Tree} {id : NodeId} {d : Definition}
    (h : t.kind? id = some (.definition d)) : t.definition id = .ok d := by
  obtain ⟨node, hn, hk⟩ := kind?_eq_some_iff.mp h
  simp [Tree.definition, node_of_get? hn, hk, bind, Except.bind]

theorem block_of_kind? {t : Tree} {id : NodeId} {stmts : List NodeId} {table : NameTable}
    (h : t.kind? id = some (.block stmts table)) : t.block id = .ok (stmts, table) := by
  obtain ⟨node, hn, hk⟩ := kind?_eq_some_iff.mp h
  simp [Tree.block, node_of_get? hn, hk, bind, Except.bind]

/-! ### Adding nodes -/

/-- `u` has the nodes of `t`, and perhaps more after them. -/
def Extends (t u : Tree) : Prop := t.nodes.toList <+: u.nodes.toList

namespace Extends

theorem refl (t : Tree) : t.Extends t := List.prefix_refl _

theorem trans {t u v : Tree} (h : t.Extends u) (g : u.Extends v) : t.Extends v :=
  List.IsPrefix.trans h g

theorem push (t : Tree) (node : Node) : t.Extends (t.push node) := by
  simp [Extends, Tree.push]

theorem get? {t u : Tree} (h : t.Extends u) {id : NodeId} {node : Node}
    (hn : t.get? id = some node) : u.get? id = some node := by
  obtain ⟨more, hm⟩ := h
  rw [Tree.get?, ← Array.getElem?_toList] at hn ⊢
  obtain ⟨hl, -⟩ := List.getElem?_eq_some_iff.mp hn
  rw [← hm, List.getElem?_append_left hl, hn]

theorem kind? {t u : Tree} (h : t.Extends u) {id : NodeId} {k : NodeKind}
    (hk : t.kind? id = some k) : u.kind? id = some k := by
  obtain ⟨node, hn, rfl⟩ := kind?_eq_some_iff.mp hk
  exact kind?_eq_some_iff.mpr ⟨node, h.get? hn, rfl⟩

/-- A node that was there already has not changed its kind. -/
theorem kind?_of_lt {t u : Tree} (h : t.Extends u) {id : NodeId} (hid : id < t.size) :
    u.kind? id = t.kind? id := by
  obtain ⟨k, hk⟩ := exists_kind?_of_lt hid
  rw [hk, h.kind? hk]

end Extends

@[simp] theorem size_push (t : Tree) (node : Node) : (t.push node).size = t.size + 1 := by
  simp [Tree.size, Tree.push]

@[simp] theorem next_eq_size (t : Tree) : t.next = t.size := rfl

theorem kind?_push_size (t : Tree) (node : Node) : (t.push node).kind? t.size = some node.kind := by
  simp [Tree.kind?, Tree.get?, Tree.push, Tree.size]

theorem kind?_push_of_ne {t : Tree} {node : Node} {id : NodeId} (h : id ≠ t.size) :
    (t.push node).kind? id = t.kind? id := by
  simp only [Tree.kind?, Tree.get?, Tree.push, Tree.size] at h ⊢
  rw [Array.getElem?_push, if_neg h]

/-! ### Parts and entries -/

def parts (t : Tree) : List NodeId := t.nodes.toList.flatMap fun node => node.kind.children

def declared (t : Tree) : List (String × NodeId) :=
  t.nodes.toList.flatMap fun node => node.kind.entries

@[simp] theorem parts_push (t : Tree) (node : Node) :
    (t.push node).parts = t.parts ++ node.kind.children := by
  simp [parts, Tree.push]

@[simp] theorem declared_push (t : Tree) (node : Node) :
    (t.push node).declared = t.declared ++ node.kind.entries := by
  simp [declared, Tree.push]

theorem mem_parts_iff {t : Tree} {c : NodeId} :
    c ∈ t.parts ↔ ∃ id k, t.kind? id = some k ∧ c ∈ k.children := by
  simp only [parts, List.mem_flatMap, Array.mem_toList_iff, Array.mem_iff_getElem?]
  constructor
  · rintro ⟨node, ⟨id, hn⟩, hc⟩
    exact ⟨id, node.kind, kind?_eq_some_iff.mpr ⟨node, hn, rfl⟩, hc⟩
  · rintro ⟨id, k, hk, hc⟩
    obtain ⟨node, hn, rfl⟩ := kind?_eq_some_iff.mp hk
    exact ⟨node, ⟨id, hn⟩, hc⟩

theorem mem_declared_iff {t : Tree} {e : String × NodeId} :
    e ∈ t.declared ↔ ∃ id k, t.kind? id = some k ∧ e ∈ k.entries := by
  simp only [declared, List.mem_flatMap, Array.mem_toList_iff, Array.mem_iff_getElem?]
  constructor
  · rintro ⟨node, ⟨id, hn⟩, hc⟩
    exact ⟨id, node.kind, kind?_eq_some_iff.mpr ⟨node, hn, rfl⟩, hc⟩
  · rintro ⟨id, k, hk, hc⟩
    obtain ⟨node, hn, rfl⟩ := kind?_eq_some_iff.mp hk
    exact ⟨node, ⟨id, hn⟩, hc⟩

theorem mem_numbered_iff {t : Tree} {id : NodeId} {node : Node} :
    (id, node) ∈ t.numbered ↔ t.get? id = some node := by
  rw [numbered, List.mem_map]
  constructor
  · rintro ⟨⟨n, i⟩, hm, he⟩
    cases he
    rw [List.mem_zipIdx_iff_getElem?, Array.getElem?_toList] at hm
    exact hm
  · intro h
    refine ⟨(node, id), ?_, rfl⟩
    rw [List.mem_zipIdx_iff_getElem?, Array.getElem?_toList]
    exact h

theorem mem_definitions_iff {t : Tree} {id : NodeId} {d : Definition} :
    (id, d) ∈ t.definitions ↔ t.kind? id = some (.definition d) := by
  rw [definitions, List.mem_filterMap]
  constructor
  · rintro ⟨⟨i, node⟩, hm, he⟩
    simp only at he
    split at he
    · rename_i e hk
      cases he
      exact kind?_eq_some_iff.mpr ⟨node, mem_numbered_iff.mp hm, hk⟩
    · cases he
  · intro h
    obtain ⟨node, hn, hk⟩ := kind?_eq_some_iff.mp h
    exact ⟨(id, node), mem_numbered_iff.mpr hn, by simp [hk]⟩

/-- The definitions come by increasing number. -/
theorem definitions_pairwise (t : Tree) : t.definitions.Pairwise fun p q => p.1 < q.1 := by
  have hNumbered : t.numbered.Pairwise fun p q => p.1 < q.1 := by
    rw [numbered, List.pairwise_map]
    have hRange : (t.nodes.toList.zipIdx.map Prod.snd).Pairwise (· < ·) := by
      rw [List.zipIdx_map_snd]
      exact List.pairwise_lt_range'
    exact List.pairwise_map.mp hRange
  rw [definitions, List.pairwise_filterMap]
  refine hNumbered.imp ?_
  rintro ⟨i, m⟩ ⟨j, n⟩ hlt p hp q hq
  simp only at hp hq
  split at hp <;> cases hp
  split at hq <;> cases hq
  exact hlt

def isGiven (t : Tree) (id : NodeId) : Bool :=
  match t.kind? id with
  | some (.definition d) => d.isGiven
  | _ => false

theorem isGiven_of_kind? {t : Tree} {id : NodeId} {d : Definition}
    (h : t.kind? id = some (.definition d)) : t.isGiven id = d.isGiven := by
  rw [isGiven, h]

/-- The definitions of a table that its block was given, in the order of the table. -/
def given (t : Tree) (table : NameTable) : List NodeId :=
  (table.entries.map Prod.snd).filter t.isGiven

theorem Extends.given {t u : Tree} (h : t.Extends u) {table : NameTable}
    (ht : ∀ e ∈ table.entries, e.2 < t.size) : u.given table = t.given table := by
  refine List.filter_congr fun id hid => ?_
  obtain ⟨e, he, rfl⟩ := List.mem_map.mp hid
  rw [isGiven, isGiven, h.kind?_of_lt (ht e he)]

structure Params (t : Tree) (ids : List NodeId) : Prop where
  ascending : ids.Pairwise (· < ·)
  param : ∀ id ∈ ids, ∃ name, t.kind? id = some (.definition (.param name))

theorem Params.mono {t u : Tree} (h : t.Extends u) {ids : List NodeId} (hp : t.Params ids) :
    u.Params ids := by
  refine ⟨hp.ascending, fun id hid => ?_⟩
  obtain ⟨name, hn⟩ := hp.param id hid
  exact ⟨name, h.kind? hn⟩

/-- What the body of a callable is given: the parameters, and the result of a function. -/
def Gives (t : Tree) (d : Definition) (ids : List NodeId) : Prop :=
  match d with
  | .func _ params _ =>
    t.Params params ∧ ∃ r, t.kind? r = some (.definition .result) ∧ ids = params ++ [r]
  | .task _ params _ => t.Params params ∧ ids = params
  | _ => ids = []

theorem Gives.mono {t u : Tree} (h : t.Extends u) {d : Definition} {ids : List NodeId}
    (hg : t.Gives d ids) : u.Gives d ids := by
  cases d with
  | func name params body =>
    obtain ⟨hp, r, hr, hids⟩ := hg
    exact ⟨hp.mono h, r, h.kind? hr, hids⟩
  | task name params body => exact ⟨hg.1.mono h, hg.2⟩
  | _ => exact hg

def InFunction (t : Tree) (r : NodeId) : Prop :=
  ∃ f name params body stmts table, t.kind? f = some (.definition (.func name params body)) ∧
    t.kind? body = some (.block stmts table) ∧ r ∈ table.entries.map Prod.snd

theorem InFunction.mono {t u : Tree} (h : t.Extends u) {r : NodeId} (hr : t.InFunction r) :
    u.InFunction r := by
  obtain ⟨f, name, params, body, stmts, table, hf, hb, hm⟩ := hr
  exact ⟨f, name, params, body, stmts, table, h.kind? hf, h.kind? hb, hm⟩

end Tree

/-- What a node numbered `id` can say of the nodes of a tree: its parts and entries are
earlier, its table has each name once, a definition among its parts is a variable of its own
table, and a callable's body is a block with the callable's parameters. -/
structure NodeKind.Fits (t : Tree) (id : NodeId) (k : NodeKind) : Prop where
  child_lt : ∀ c ∈ k.children, c < id
  entry_lt : ∀ e ∈ k.entries, e.2 < id
  names_nodup : (k.entries.map Prod.fst).Nodup
  child_var : ∀ c ∈ k.children, ∀ d, t.kind? c = some (.definition d) →
    d.isVariable = true ∧ c ∈ k.entries.map Prod.snd
  body : ∀ d b, k = .definition d → d.body? = some b →
    ∃ stmts table, t.kind? b = some (.block stmts table) ∧ t.Gives d (t.given table)

structure Tree.WellFormed (t : Tree) : Prop where
  root_last : t.root + 1 = t.size
  root_block : ∃ stmts table, t.kind? t.root = some (.block stmts table)
  fits : ∀ id k, t.kind? id = some k → k.Fits t id
  parts_nodup : t.parts.Nodup
  mem_parts : ∀ id k, t.kind? id = some k → k.isDefinition = false → id ≠ t.root → id ∈ t.parts
  declared_nodup : (t.declared.map Prod.snd).Nodup
  mem_declared : ∀ id d, t.kind? id = some (.definition d) → id ∈ t.declared.map Prod.snd
  declared_name : ∀ e ∈ t.declared, ∃ d, t.kind? e.2 = some (.definition d) ∧ d.name = e.1
  result_in : ∀ r, t.kind? r = some (.definition .result) → t.InFunction r

/-- What fits a tree fits every longer tree. -/
theorem NodeKind.Fits.mono {t u : Tree} (h : t.Extends u)
    (ht : ∀ i j, t.kind? i = some j → ∀ e ∈ j.entries, e.2 < i) {id : NodeId} {k : NodeKind}
    (hid : id ≤ t.size) (hk : k.Fits t id) : k.Fits u id where
  child_lt := hk.child_lt
  entry_lt := hk.entry_lt
  names_nodup := hk.names_nodup
  child_var := by
    intro c hc d hd
    have hlt : c < t.size := Nat.lt_of_lt_of_le (hk.child_lt c hc) hid
    exact hk.child_var c hc d (h.kind?_of_lt hlt ▸ hd)
  body := by
    intro d b hd hb
    obtain ⟨stmts, table, hblock, hg⟩ := hk.body d b hd hb
    refine ⟨stmts, table, h.kind? hblock, ?_⟩
    rw [h.given]
    · exact hg.mono h
    · intro e he
      exact Nat.lt_trans (ht b _ hblock e he) (Tree.lt_size_of_kind? hblock)

end StageScript

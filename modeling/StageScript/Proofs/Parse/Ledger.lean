import Mathlib.Data.List.Perm.Basic
import StageScript.Proofs.Parse.Triple
import StageScript.Proofs.Tree.Shape

/-!
# The ledger of a parser

While a script is parsed, its nodes are made from the leaves up.  Each node is at every
moment in one place: it is a part of a later node, or a rule that is not finished yet holds
it.  Likewise a definition stands in the table of a finished block, in the table of an open
one, or is loose until the block that it is given to is opened.  `Accounted` is this
ledger of a store:

* `held`: nodes that unfinished rules hold, all of them no definitions;
* `stmts`: statements of the open blocks, among them declared variables;
* `loose`: definitions that no table has yet.

The lists keep the order in which the rules make the nodes, which is the order in which they
become parts: so a rule takes what it needs from the end of a list.

The lemmas of this file say how the ledger changes when a node is added
(`Accounted.push_part`, `Accounted.push_definition`), a name is declared
(`Accounted.declare`), and a block is opened or closed (`Accounted.open_block`,
`Accounted.close_block`).
-/

open scoped List

namespace StageScript

namespace Store

def entries (s : Store) : List (String × NodeId) :=
  s.table.entries ++ s.outer.flatMap NameTable.entries

def push (s : Store) (node : Node) : Store := { s with tree := s.tree.push node }

@[simp] theorem push_tree (s : Store) (node : Node) : (s.push node).tree = s.tree.push node := rfl

@[simp] theorem push_table (s : Store) (node : Node) : (s.push node).table = s.table := rfl

@[simp] theorem push_outer (s : Store) (node : Node) : (s.push node).outer = s.outer := rfl

@[simp] theorem push_entries (s : Store) (node : Node) : (s.push node).entries = s.entries := rfl

/-- A node that can be a statement of the innermost open block: a definition only if it is a
variable of that block. -/
def Statement (s : Store) (id : NodeId) : Prop :=
  ∀ d, s.tree.kind? id = some (.definition d) →
    d.isVariable = true ∧ id ∈ s.table.entries.map Prod.snd

/-- What rules do to a store between opening and closing blocks: they add nodes, and they
declare names in the innermost open block, none of them given to it.  A result that they add
belongs to a function that they add. -/
structure Grows (base s : Store) : Prop where
  tree : base.tree.Extends s.tree
  outer : s.outer = base.outer
  table : ∃ new, s.table.entries = base.table.entries ++ new ∧
    ∀ e ∈ new, ∃ d, s.tree.kind? e.2 = some (.definition d) ∧ d.isGiven = false
  result : ∀ r, s.tree.kind? r = some (.definition .result) →
    r < base.tree.size ∨ s.tree.InFunction r

namespace Grows

theorem refl (s : Store) : s.Grows s :=
  ⟨.refl _, rfl, ⟨[], by simp⟩, fun _ hr => .inl (Tree.lt_size_of_kind? hr)⟩

theorem trans {a b c : Store} (h : a.Grows b) (g : b.Grows c) : a.Grows c := by
  obtain ⟨new, hNew, hd⟩ := h.table
  obtain ⟨more, hMore, hm⟩ := g.table
  refine ⟨h.tree.trans g.tree, g.outer.trans h.outer, ⟨new ++ more, ?_, ?_⟩, ?_⟩
  · rw [hMore, hNew, List.append_assoc]
  · intro e he
    rcases List.mem_append.mp he with he | he
    · obtain ⟨d, hk, hg⟩ := hd e he
      exact ⟨d, g.tree.kind? hk, hg⟩
    · exact hm e he
  · intro r hr
    rcases g.result r hr with hlt | hIn
    · rw [g.tree.kind?_of_lt hlt] at hr
      exact (h.result r hr).imp_right fun hIn => hIn.mono g.tree
    · exact .inr hIn

/-- A node added last that is no result leaves the results as they were. -/
theorem result_push {t u : Tree} {node : Node} (hn : node.kind ≠ .definition .result)
    (h : ∀ r, u.kind? r = some (.definition .result) → r < t.size ∨ u.InFunction r) (r : NodeId)
    (hr : (u.push node).kind? r = some (.definition .result)) :
    r < t.size ∨ (u.push node).InFunction r := by
  have hOld : r ≠ u.size := by
    rintro rfl
    rw [Tree.kind?_push_size] at hr
    exact hn (Option.some.inj hr)
  rw [Tree.kind?_push_of_ne hOld] at hr
  exact (h r hr).imp_right fun hIn => hIn.mono (.push _ _)

theorem push (s : Store) {node : Node} (hn : node.kind ≠ .definition .result) :
    s.Grows (s.push node) :=
  ⟨.push _ _, rfl, ⟨[], by simp⟩, result_push hn (refl s).result⟩

/-- A result may be added first, if a function takes it later. -/
theorem of_result {s u : Store} {span : Span} (h : (s.push ⟨.definition .result, span⟩).Grows u)
    (hr : u.tree.InFunction s.tree.size) : s.Grows u := by
  refine ⟨(Tree.Extends.push _ _).trans h.tree, h.outer, h.table, fun x hx => ?_⟩
  rcases h.result x hx with hlt | hIn
  · rw [Store.push_tree, Tree.size_push] at hlt
    rcases Nat.lt_succ_iff_lt_or_eq.mp hlt with hlt | rfl
    · exact .inl hlt
    · exact .inr hr
  · exact .inr hIn

theorem statement {a b : Store} (h : a.Grows b) {id : NodeId} (hid : id < a.tree.size)
    (hs : a.Statement id) : b.Statement id := by
  intro d hd
  rw [h.tree.kind?_of_lt hid] at hd
  obtain ⟨new, hNew, -⟩ := h.table
  obtain ⟨hv, hm⟩ := hs d hd
  refine ⟨hv, ?_⟩
  rw [hNew, List.map_append]
  exact List.mem_append_left _ hm

end Grows

end Store

/-- Every node is a part of one later node or held, and every definition is in one table or
loose. -/
structure Accounted (s : Store) (held stmts loose : List NodeId) : Prop where
  owned : (s.tree.parts ++ held ++ stmts).Nodup
  mem_owned : ∀ id k, s.tree.kind? id = some k → k.isDefinition = false →
    id ∈ s.tree.parts ++ held ++ stmts
  plain : ∀ id ∈ held, ∃ k, s.tree.kind? id = some k ∧ k.isDefinition = false
  stmt_lt : ∀ id ∈ stmts, id < s.tree.size
  named : ((s.tree.declared ++ s.entries).map Prod.snd ++ loose).Nodup
  mem_named : ∀ id d, s.tree.kind? id = some (.definition d) →
    id ∈ (s.tree.declared ++ s.entries).map Prod.snd ++ loose
  entry : ∀ e ∈ s.tree.declared ++ s.entries,
    ∃ d, s.tree.kind? e.2 = some (.definition d) ∧ d.name = e.1
  loose_def : ∀ id ∈ loose, ∃ d, s.tree.kind? id = some (.definition d)
  keys : ∀ t ∈ s.table :: s.outer, (t.entries.map Prod.fst).Nodup
  fits : ∀ id k, s.tree.kind? id = some k → k.Fits s.tree id

namespace Accounted

variable {s : Store} {held stmts loose : List NodeId}

theorem empty : Accounted ⟨Tree.empty, NameTable.empty, []⟩ [] [] [] := by
  have hNone : ∀ id, Tree.empty.kind? id = none := fun id => by
    simp [Tree.kind?, Tree.get?, Tree.empty]
  refine ⟨?_, ?_, ?_, ?_, ?_, ?_, ?_, ?_, ?_, ?_⟩ <;>
    simp [hNone, Tree.parts, Tree.declared, Store.entries, NameTable.empty] <;>
    simp [Tree.empty]

/-! ### Bounds -/

theorem entry_lt (h : Accounted s held stmts loose) {e : String × NodeId}
    (he : e ∈ s.tree.declared ++ s.entries) : e.2 < s.tree.size := by
  obtain ⟨d, hd, -⟩ := h.entry e he
  exact Tree.lt_size_of_kind? hd

theorem owned_lt (h : Accounted s held stmts loose) {id : NodeId}
    (hid : id ∈ s.tree.parts ++ held ++ stmts) : id < s.tree.size := by
  rcases List.mem_append.mp hid with hid | hid
  · rcases List.mem_append.mp hid with hid | hid
    · obtain ⟨n, k, hk, hc⟩ := Tree.mem_parts_iff.mp hid
      exact Nat.lt_trans ((h.fits n k hk).child_lt id hc) (Tree.lt_size_of_kind? hk)
    · obtain ⟨k, hk, -⟩ := h.plain id hid
      exact Tree.lt_size_of_kind? hk
  · exact h.stmt_lt id hid

theorem named_lt (h : Accounted s held stmts loose) {id : NodeId}
    (hid : id ∈ (s.tree.declared ++ s.entries).map Prod.snd ++ loose) : id < s.tree.size := by
  rcases List.mem_append.mp hid with hid | hid
  · obtain ⟨e, he, rfl⟩ := List.mem_map.mp hid
    exact h.entry_lt he
  · obtain ⟨d, hd⟩ := h.loose_def id hid
    exact Tree.lt_size_of_kind? hd

theorem node_entry_lt (h : Accounted s held stmts loose) :
    ∀ i j, s.tree.kind? i = some j → ∀ e ∈ j.entries, e.2 < i :=
  fun i j hj => (h.fits i j hj).entry_lt

/-! ### Adding nodes -/

/-- The nodes there are fit on when a fitting one is added. -/
theorem fits_push (h : Accounted s held stmts loose) {node : Node}
    (hn : node.kind.Fits s.tree s.tree.size) :
    ∀ id k, (s.tree.push node).kind? id = some k → k.Fits (s.tree.push node) id := by
  intro id k hk
  by_cases hid : id = s.tree.size
  · subst hid
    rw [Tree.kind?_push_size] at hk
    cases hk
    exact hn.mono (.push _ _) h.node_entry_lt (Nat.le_refl _)
  · rw [Tree.kind?_push_of_ne hid] at hk
    exact (h.fits id k hk).mono (.push _ _) h.node_entry_lt
      (Nat.le_of_lt (Tree.lt_size_of_kind? hk))

/-- A node without table is made of the nodes held last. -/
theorem push_part {k : NodeKind} (h : Accounted s (held ++ k.children) stmts loose)
    (hd : k.isDefinition = false) (he : k.entries = []) (span : Span) :
    Accounted (s.push ⟨k, span⟩) (held ++ [s.tree.size]) stmts loose := by
  have hExt : s.tree.Extends (s.tree.push ⟨k, span⟩) := .push _ _
  have hPerm : s.tree.parts ++ k.children ++ (held ++ [s.tree.size]) ++ stmts ~
      s.tree.size :: (s.tree.parts ++ (held ++ k.children) ++ stmts) := by
    refine List.perm_iff_count.mpr fun x => ?_
    simp only [List.count_append, List.count_cons, List.count_nil]
    omega
  have hFresh : s.tree.size ∉ s.tree.parts ++ (held ++ k.children) ++ stmts :=
    fun hm => Nat.lt_irrefl _ (h.owned_lt hm)
  refine ⟨?_, ?_, ?_, ?_, ?_, ?_, ?_, ?_, h.keys, ?_⟩
  · rw [Store.push_tree, Tree.parts_push]
    exact hPerm.nodup_iff.mpr (List.nodup_cons.mpr ⟨hFresh, h.owned⟩)
  · intro id j hj hjd
    rw [Store.push_tree, Tree.parts_push, hPerm.mem_iff, List.mem_cons]
    by_cases hid : id = s.tree.size
    · exact Or.inl hid
    · rw [Store.push_tree, Tree.kind?_push_of_ne hid] at hj
      exact Or.inr (h.mem_owned id j hj hjd)
  · intro id hid
    rcases List.mem_append.mp hid with hid | hid
    · obtain ⟨j, hj, hjd⟩ := h.plain id (List.mem_append_left _ hid)
      exact ⟨j, hExt.kind? hj, hjd⟩
    · rw [List.mem_singleton.mp hid]
      exact ⟨k, Tree.kind?_push_size _ _, hd⟩
  · intro id hid
    rw [Store.push_tree, Tree.size_push]
    exact Nat.lt_succ_of_lt (h.stmt_lt id hid)
  · simpa [he] using h.named
  · intro id d hk
    have hid : id ≠ s.tree.size := by
      rintro rfl
      rw [Store.push_tree, Tree.kind?_push_size] at hk
      exact NodeKind.isDefinition_eq_false_iff.mp hd d (Option.some.inj hk)
    rw [Store.push_tree, Tree.kind?_push_of_ne hid] at hk
    simpa [he] using h.mem_named id d hk
  · intro e hm
    obtain ⟨d, hk, hn⟩ := h.entry e (by simpa [he] using hm)
    exact ⟨d, hExt.kind? hk, hn⟩
  · intro id hid
    obtain ⟨d, hk⟩ := h.loose_def id hid
    exact ⟨d, hExt.kind? hk⟩
  · refine h.fits_push ⟨?_, ?_, ?_, ?_, ?_⟩
    · intro c hc
      exact h.owned_lt (by simp [hc])
    · simp [he]
    · simp [he]
    · intro c hc d hk
      obtain ⟨j, hj, hjd⟩ := h.plain c (List.mem_append_right _ hc)
      rw [hk] at hj
      cases hj
      simp at hjd
    · intro d b hk
      exact absurd hk (NodeKind.isDefinition_eq_false_iff.mp hd d)

/-- A definition is loose at first.  The body of a callable is the node held last. -/
theorem push_definition {d : Definition} (h : Accounted s (held ++ d.body?.toList) stmts loose)
    (hBody : ∀ b, d.body? = some b → ∃ ids table, s.tree.kind? b = some (.block ids table) ∧
      s.tree.Gives d (s.tree.given table)) (span : Span) :
    Accounted (s.push ⟨.definition d, span⟩) held stmts (loose ++ [s.tree.size]) := by
  have hExt : s.tree.Extends (s.tree.push ⟨.definition d, span⟩) := .push _ _
  have hPerm : s.tree.parts ++ d.body?.toList ++ held ++ stmts ~
      s.tree.parts ++ (held ++ d.body?.toList) ++ stmts := by
    refine List.perm_iff_count.mpr fun x => ?_
    simp only [List.count_append]
    omega
  have hFresh : s.tree.size ∉ (s.tree.declared ++ s.entries).map Prod.snd ++ loose :=
    fun hm => Nat.lt_irrefl _ (h.named_lt hm)
  refine ⟨?_, ?_, ?_, ?_, ?_, ?_, ?_, ?_, h.keys, ?_⟩
  · rw [Store.push_tree, Tree.parts_push]
    exact hPerm.nodup_iff.mpr h.owned
  · intro id j hj hjd
    have hid : id ≠ s.tree.size := by
      rintro rfl
      rw [Store.push_tree, Tree.kind?_push_size] at hj
      cases hj
      simp at hjd
    rw [Store.push_tree, Tree.kind?_push_of_ne hid] at hj
    rw [Store.push_tree, Tree.parts_push]
    exact hPerm.mem_iff.mpr (h.mem_owned id j hj hjd)
  · intro id hid
    obtain ⟨j, hj, hjd⟩ := h.plain id (List.mem_append_left _ hid)
    exact ⟨j, hExt.kind? hj, hjd⟩
  · intro id hid
    rw [Store.push_tree, Tree.size_push]
    exact Nat.lt_succ_of_lt (h.stmt_lt id hid)
  · rw [Store.push_tree, Tree.declared_push, Store.push_entries, ← List.append_assoc]
    simp only [NodeKind.entries, List.append_nil]
    exact List.Nodup.append h.named (List.nodup_singleton _)
      (List.disjoint_singleton.mpr hFresh)
  · intro id e hk
    rw [Store.push_tree, Tree.declared_push, Store.push_entries, ← List.append_assoc]
    simp only [NodeKind.entries, List.append_nil]
    by_cases hid : id = s.tree.size
    · exact List.mem_append_right _ (List.mem_singleton.mpr hid)
    · rw [Store.push_tree, Tree.kind?_push_of_ne hid] at hk
      exact List.mem_append_left _ (h.mem_named id e hk)
  · intro e hm
    obtain ⟨c, hk, hn⟩ := h.entry e (by simpa [NodeKind.entries] using hm)
    exact ⟨c, hExt.kind? hk, hn⟩
  · intro id hid
    rcases List.mem_append.mp hid with hid | hid
    · obtain ⟨c, hk⟩ := h.loose_def id hid
      exact ⟨c, hExt.kind? hk⟩
    · rw [List.mem_singleton.mp hid]
      exact ⟨d, Tree.kind?_push_size _ _⟩
  · refine h.fits_push ⟨?_, ?_, ?_, ?_, ?_⟩
    · intro c hc
      exact h.owned_lt (by simp_all [NodeKind.children])
    · simp [NodeKind.entries]
    · simp [NodeKind.entries]
    · intro c hc e hk
      obtain ⟨j, hj, hjd⟩ := h.plain c (List.mem_append_right _ hc)
      rw [hk] at hj
      cases hj
      simp at hjd
    · intro e b he hb
      cases he
      exact hBody b hb

/-- A declared variable can be a statement too: it is a part of nothing else. -/
theorem push_variable (h : Accounted s held stmts loose) (name : String) (span : Span) :
    Accounted (s.push ⟨.definition (.var name), span⟩) held (stmts ++ [s.tree.size])
      (loose ++ [s.tree.size]) := by
  have hd : Accounted s (held ++ (Definition.var name).body?.toList) stmts loose := by
    simpa [Definition.body?] using h
  have hp := hd.push_definition (by simp [Definition.body?]) span
  have hFresh : s.tree.size ∉ (s.push ⟨.definition (.var name), span⟩).tree.parts ++ held ++ stmts := by
    intro hm
    have hOwned : s.tree.size ∈ s.tree.parts ++ held ++ stmts := by
      simpa [NodeKind.children, Definition.body?] using hm
    exact Nat.lt_irrefl _ (h.owned_lt hOwned)
  refine ⟨?_, ?_, hp.plain, ?_, hp.named, hp.mem_named, hp.entry, hp.loose_def, hp.keys, hp.fits⟩
  · rw [← List.append_assoc]
    exact List.Nodup.append hp.owned (List.nodup_singleton _) (List.disjoint_singleton.mpr hFresh)
  · intro id k hk hkd
    rw [← List.append_assoc]
    exact List.mem_append_left _ (hp.mem_owned id k hk hkd)
  · intro id hid
    rcases List.mem_append.mp hid with hid | hid
    · exact hp.stmt_lt id hid
    · rw [List.mem_singleton.mp hid, Store.push_tree, Tree.size_push]
      exact Nat.lt_succ_self _

/-! ### Statements -/

/-- What is held last becomes a statement. -/
theorem settle {ids : List NodeId} (h : Accounted s (held ++ ids) stmts loose) :
    Accounted s held (stmts ++ ids) loose := by
  have hPerm : s.tree.parts ++ held ++ (stmts ++ ids) ~
      s.tree.parts ++ (held ++ ids) ++ stmts := by
    refine List.perm_iff_count.mpr fun x => ?_
    simp only [List.count_append]
    omega
  refine ⟨hPerm.nodup_iff.mpr h.owned, ?_, ?_, ?_, h.named, h.mem_named, h.entry, h.loose_def,
    h.keys, h.fits⟩
  · intro id k hk hkd
    exact hPerm.mem_iff.mpr (h.mem_owned id k hk hkd)
  · intro id hid
    exact h.plain id (List.mem_append_left _ hid)
  · intro id hid
    rcases List.mem_append.mp hid with hid | hid
    · exact h.stmt_lt id hid
    · exact h.owned_lt (by simp [hid])

theorem statement_of_plain {ids : List NodeId} (h : Accounted s (held ++ ids) stmts loose)
    {id : NodeId} (hid : id ∈ ids) : s.Statement id := by
  intro d hd
  obtain ⟨k, hk, hkd⟩ := h.plain id (List.mem_append_right _ hid)
  rw [hd] at hk
  cases hk
  simp at hkd

/-! ### Names and blocks -/

theorem find?_eq_none_iff {t : NameTable} {name : String} :
    t.find? name = none ↔ name ∉ t.entries.map Prod.fst := by
  rw [NameTable.find?, List.lookup_eq_none_iff]
  simp only [List.mem_map, not_exists, not_and, bne_iff_ne, ne_eq]
  exact ⟨fun h e he hn => h e he hn.symm, fun h e he hn => h e he hn.symm⟩

/-- A loose definition is declared under its name in the innermost open block. -/
theorem declare {before after : List NodeId} {id : NodeId} {d : Definition} {table : NameTable}
    (h : Accounted s held stmts (before ++ id :: after))
    (hk : s.tree.kind? id = some (.definition d)) (ht : s.table.declare? d.name id = some table) :
    Accounted { s with table } held stmts (before ++ after) := by
  have hNew : d.name ∉ s.table.entries.map Prod.fst ∧ table = s.table.insert d.name id := by
    rw [NameTable.declare?] at ht
    split at ht
    · cases ht
    · exact ⟨find?_eq_none_iff.mp ‹_›, (Option.some.inj ht).symm⟩
  obtain ⟨hName, rfl⟩ := hNew
  have hEntries : ({ s with table := s.table.insert d.name id } : Store).entries =
      s.table.entries ++ (d.name, id) :: s.outer.flatMap NameTable.entries := by
    simp [Store.entries, NameTable.insert]
  have hPerm : (s.tree.declared ++ ({ s with table := s.table.insert d.name id } : Store).entries).map
      Prod.snd ++ (before ++ after) ~
      (s.tree.declared ++ s.entries).map Prod.snd ++ (before ++ id :: after) := by
    refine List.perm_iff_count.mpr fun x => ?_
    rw [hEntries, Store.entries]
    simp only [List.map_append, List.map_cons, List.count_append, List.count_cons]
    omega
  refine ⟨h.owned, h.mem_owned, h.plain, h.stmt_lt, hPerm.nodup_iff.mpr h.named, ?_, ?_, ?_, ?_,
    h.fits⟩
  · intro i e hi
    exact hPerm.mem_iff.mpr (h.mem_named i e hi)
  · intro e he
    rw [hEntries] at he
    by_cases hEq : e = (d.name, id)
    · exact ⟨d, hEq ▸ hk, hEq ▸ rfl⟩
    · refine h.entry e ?_
      rw [Store.entries]
      simp only [List.mem_append, List.mem_cons] at he ⊢
      tauto
  · intro i hi
    refine h.loose_def i ?_
    simp only [List.mem_append, List.mem_cons] at hi ⊢
    tauto
  · intro t ht
    rcases List.mem_cons.mp ht with rfl | ht
    · simp only [NameTable.insert, List.map_append, List.map_cons, List.map_nil]
      exact List.Nodup.append (h.keys _ (List.mem_cons_self ..)) (List.nodup_singleton _)
        (List.disjoint_singleton.mpr hName)
    · exact h.keys t (List.mem_cons_of_mem _ ht)

/-- A block is opened with an empty table. -/
theorem open_block (h : Accounted s held stmts loose) :
    Accounted ⟨s.tree, NameTable.empty, s.table :: s.outer⟩ held stmts loose := by
  have hEntries : (⟨s.tree, NameTable.empty, s.table :: s.outer⟩ : Store).entries = s.entries := by
    simp [Store.entries, NameTable.empty]
  refine ⟨h.owned, h.mem_owned, h.plain, h.stmt_lt, ?_, ?_, ?_, h.loose_def, ?_, h.fits⟩
  · rw [hEntries]
    exact h.named
  · rw [hEntries]
    exact h.mem_named
  · rw [hEntries]
    exact h.entry
  · intro t ht
    rcases List.mem_cons.mp ht with rfl | ht
    · simp [NameTable.empty]
    · exact h.keys t ht

/-- A block is closed: it is made of the statements last made, and takes its table along.  The
tables that are open then are `table` and `outer`. -/
theorem close_block {ids : List NodeId} {table : NameTable} {outer : Chain}
    (h : Accounted s held (stmts ++ ids) loose) (hs : ∀ id ∈ ids, s.Statement id)
    (ho : s.outer.flatMap NameTable.entries = table.entries ++ outer.flatMap NameTable.entries)
    (hKeys : ∀ t ∈ table :: outer, (t.entries.map Prod.fst).Nodup) (span : Span) :
    Accounted ⟨s.tree.push ⟨.block ids s.table, span⟩, table, outer⟩ (held ++ [s.tree.size]) stmts
      loose := by
  have hExt : s.tree.Extends (s.tree.push ⟨.block ids s.table, span⟩) := .push _ _
  have hOwned : s.tree.parts ++ ids ++ (held ++ [s.tree.size]) ++ stmts ~
      s.tree.size :: (s.tree.parts ++ held ++ (stmts ++ ids)) := by
    refine List.perm_iff_count.mpr fun x => ?_
    simp only [List.count_append, List.count_cons, List.count_nil]
    omega
  have hFresh : s.tree.size ∉ s.tree.parts ++ held ++ (stmts ++ ids) :=
    fun hm => Nat.lt_irrefl _ (h.owned_lt hm)
  have hNamed : s.tree.declared ++ s.table.entries ++
      (⟨s.tree.push ⟨.block ids s.table, span⟩, table, outer⟩ : Store).entries =
      s.tree.declared ++ s.entries := by
    simp only [Store.entries, ← ho, List.append_assoc]
  refine ⟨?_, ?_, ?_, ?_, ?_, ?_, ?_, ?_, hKeys, ?_⟩
  · rw [Tree.parts_push]
    exact hOwned.nodup_iff.mpr (List.nodup_cons.mpr ⟨hFresh, h.owned⟩)
  · intro id k hk hkd
    rw [Tree.parts_push]
    refine hOwned.mem_iff.mpr (List.mem_cons.mpr ?_)
    by_cases hid : id = s.tree.size
    · exact Or.inl hid
    · rw [Tree.kind?_push_of_ne hid] at hk
      exact Or.inr (h.mem_owned id k hk hkd)
  · intro id hid
    rcases List.mem_append.mp hid with hid | hid
    · obtain ⟨j, hj, hjd⟩ := h.plain id hid
      exact ⟨j, hExt.kind? hj, hjd⟩
    · rw [List.mem_singleton.mp hid]
      exact ⟨_, Tree.kind?_push_size _ _, rfl⟩
  · intro id hid
    rw [Tree.size_push]
    exact Nat.lt_succ_of_lt (h.stmt_lt id (List.mem_append_left _ hid))
  · rw [Tree.declared_push, NodeKind.entries, hNamed]
    exact h.named
  · intro id d hk
    have hid : id ≠ s.tree.size := by
      rintro rfl
      rw [Tree.kind?_push_size] at hk
      cases hk
    rw [Tree.kind?_push_of_ne hid] at hk
    rw [Tree.declared_push, NodeKind.entries, hNamed]
    exact h.mem_named id d hk
  · intro e he
    rw [Tree.declared_push, NodeKind.entries, hNamed] at he
    obtain ⟨d, hk, hn⟩ := h.entry e he
    exact ⟨d, hExt.kind? hk, hn⟩
  · intro id hid
    obtain ⟨d, hk⟩ := h.loose_def id hid
    exact ⟨d, hExt.kind? hk⟩
  · refine h.fits_push ⟨?_, ?_, ?_, ?_, ?_⟩
    · intro c hc
      exact h.stmt_lt c (List.mem_append_right _ hc)
    · intro e he
      exact h.entry_lt (List.mem_append_right _ (List.mem_append_left _ he))
    · exact h.keys _ (List.mem_cons_self ..)
    · exact fun c hc d hk => hs c hc d hk
    · intro d b hk
      cases hk

end Accounted

end StageScript

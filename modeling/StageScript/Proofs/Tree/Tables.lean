import Mathlib
import StageScript.Proofs.Parse.Script
import StageScript.Proofs.Tree.Owner
import StageScript.Token.Scan

/-!
# Places and tables

A place in a tree is a node and a position in it: in the list of its parts (`Tree.part?`) or
in its table (`Tree.entry?`).  In a well-formed tree a node has one place.  What the table of a
body has of its callable is exact: the parameters in their order, and the result if the
callable is a function.
-/

namespace StageScript

def Definition.params : Definition → List NodeId
  | func _ params _ => params
  | task _ params _ => params
  | _ => []

/-- The nodes that a node names: its parts and entries, and the parameters of a callable. -/
def NodeKind.mentions (k : NodeKind) : List NodeId :=
  match k with
  | definition d => d.params ++ k.children
  | _ => k.children ++ k.entries.map Prod.snd

namespace Tree

def part? (t : Tree) (place : NodeId × Nat) : Option NodeId :=
  (t.kind? place.1).bind fun k => k.children[place.2]?

def entry? (t : Tree) (place : NodeId × Nat) : Option (String × NodeId) :=
  (t.kind? place.1).bind fun k => k.entries[place.2]?

def isParam (t : Tree) (id : NodeId) : Bool :=
  match t.kind? id with
  | some (.definition (.param _)) => true
  | _ => false

theorem part?_eq_some_iff {t : Tree} {i c : NodeId} {n : Nat} :
    t.part? (i, n) = some c ↔ ∃ k, t.kind? i = some k ∧ k.children[n]? = some c :=
  Option.bind_eq_some_iff

theorem entry?_eq_some_iff {t : Tree} {i : NodeId} {n : Nat} {e : String × NodeId} :
    t.entry? (i, n) = some e ↔ ∃ k, t.kind? i = some k ∧ k.entries[n]? = some e :=
  Option.bind_eq_some_iff

theorem isParam_of_kind? {t : Tree} {id : NodeId} {d : Definition}
    (h : t.kind? id = some (.definition d)) : t.isParam id = true ↔ ∃ name, d = .param name := by
  rw [isParam, h]
  cases d <;> simp

theorem isGiven_of_isParam {t : Tree} {id : NodeId} (h : t.isParam id = true) :
    t.isGiven id = true := by
  unfold isParam at h
  split at h
  · rename_i name hk
    rw [isGiven_of_kind? hk]
    rfl
  · cases h

theorem Params.filter_isParam {t : Tree} {ids : List NodeId} (h : t.Params ids) :
    ids.filter t.isParam = ids := by
  refine List.filter_eq_self.mpr fun id hid => ?_
  obtain ⟨name, hn⟩ := h.param id hid
  exact (isParam_of_kind? hn).mpr ⟨name, rfl⟩

/-- The parameters among what a body is given are those of its callable. -/
theorem Gives.filter_isParam {t : Tree} {d : Definition} {ids : List NodeId} (h : t.Gives d ids) :
    ids.filter t.isParam = d.params ∧ d.params.Pairwise (· < ·) := by
  cases d with
  | func name params body =>
    obtain ⟨hp, r, hr, rfl⟩ := h
    have hResult : t.isParam r = false := by
      rw [isParam, hr]
    refine ⟨?_, hp.ascending⟩
    rw [List.filter_append, hp.filter_isParam]
    simp [hResult, Definition.params]
  | task name params body =>
    obtain ⟨hp, rfl⟩ := h
    exact ⟨hp.filter_isParam, hp.ascending⟩
  | _ =>
    rw [show ids = [] from h]
    exact ⟨rfl, .nil⟩

namespace WellFormed

variable {t : Tree}

/-- A node that is no definition stands at one place among the parts. -/
theorem exists_unique_part (h : t.WellFormed) {id : NodeId} {k : NodeKind}
    (hk : t.kind? id = some k) (hd : k.isDefinition = false) (hr : id ≠ t.root) :
    ∃! place, t.part? place = some id := by
  obtain ⟨i, l, hl, hm⟩ := h.exists_part_of hk hd hr
  obtain ⟨n, hn⟩ := List.mem_iff_getElem?.mp hm
  refine ⟨(i, n), part?_eq_some_iff.mpr ⟨l, hl, hn⟩, ?_⟩
  rintro ⟨j, m⟩ hj
  obtain ⟨l', hl', hm'⟩ := part?_eq_some_iff.mp hj
  obtain rfl := h.part_unique hl hl' hm (List.mem_of_getElem? hm')
  rw [hl] at hl'
  cases hl'
  have hlt : m < l.children.length := (List.getElem?_eq_some_iff.mp hm').1
  rw [(List.getElem?_inj hlt (h.children_nodup hl)).mp (hm'.trans hn.symm)]

/-- A definition stands at one place in the tables, under its name. -/
theorem exists_unique_entry (h : t.WellFormed) {id : NodeId} {d : Definition}
    (hk : t.kind? id = some (.definition d)) :
    ∃ place, t.entry? place = some (d.name, id) ∧
      ∀ other name, t.entry? other = some (name, id) → other = place ∧ name = d.name := by
  obtain ⟨i, l, hl, hm⟩ := h.exists_entry_of hk
  obtain ⟨n, hn⟩ := List.mem_iff_getElem?.mp hm
  have hName : ∀ {j m name}, t.entry? (j, m) = some (name, id) → name = d.name := by
    intro j m name he
    obtain ⟨l', hl', hm'⟩ := entry?_eq_some_iff.mp he
    obtain ⟨e, hke, he⟩ :=
      h.declared_name _ (mem_declared_iff.mpr ⟨j, l', hl', List.mem_of_getElem? hm'⟩)
    rw [hk] at hke
    cases hke
    exact he.symm
  have hOne : ∀ {j m name}, t.entry? (j, m) = some (name, id) → (j, m) = (i, n) := by
    intro j m name he
    obtain ⟨l', hl', hm'⟩ := entry?_eq_some_iff.mp he
    have hIds : (l'.entries.map Prod.snd)[m]? = some id := by
      rw [List.getElem?_map, hm']
      rfl
    obtain rfl := h.entry_unique hl hl' hm (List.mem_of_getElem? hIds)
    rw [hl] at hl'
    cases hl'
    have hlt : m < (l.entries.map Prod.snd).length := (List.getElem?_eq_some_iff.mp hIds).1
    rw [(List.getElem?_inj hlt (h.entries_nodup hl)).mp (hIds.trans hn.symm)]
  rw [List.getElem?_map, Option.map_eq_some_iff] at hn
  obtain ⟨⟨name, j⟩, he, rfl⟩ := hn
  have hAt : t.entry? (i, n) = some (name, j) := entry?_eq_some_iff.mpr ⟨l, hl, he⟩
  refine ⟨(i, n), ?_, fun other name' ho => ⟨hOne ho, hName ho⟩⟩
  rw [hAt, hName hAt]

/-- The parameters of a callable are those in the table of its body. -/
theorem params_eq (h : t.WellFormed) {f b : NodeId} {d : Definition}
    (hk : t.kind? f = some (.definition d)) (hb : d.body? = some b) :
    ∃ stmts table, t.kind? b = some (.block stmts table) ∧
      d.params = (table.entries.map Prod.snd).filter t.isParam ∧ d.params.Pairwise (· < ·) := by
  obtain ⟨stmts, table, hBlock, hg⟩ := (h.fits f _ hk).body d b rfl hb
  refine ⟨stmts, table, hBlock, ?_, hg.filter_isParam.2⟩
  rw [← hg.filter_isParam.1, given, List.filter_filter]
  refine List.filter_congr fun id _ => ?_
  cases hp : t.isParam id with
  | false => rfl
  | true => simp [isGiven_of_isParam hp]

theorem param_lt (h : t.WellFormed) {f c : NodeId} {d : Definition}
    (hk : t.kind? f = some (.definition d)) (hc : c ∈ d.params) : c < f := by
  have hBody : ∃ b, d.body? = some b := by
    cases d <;> simp [Definition.params] at hc <;> exact ⟨_, rfl⟩
  obtain ⟨b, hb⟩ := hBody
  obtain ⟨stmts, table, hBlock, hp, -⟩ := h.params_eq hk hb
  rw [hp] at hc
  calc c < b := h.entry_lt hBlock (List.mem_filter.mp hc).1
    _ < f := h.child_lt hk (NodeKind.mem_children_of_body? hb)

theorem mention_lt (h : t.WellFormed) {id c : NodeId} {k : NodeKind} (hk : t.kind? id = some k)
    (hc : c ∈ k.mentions) : c < id := by
  unfold NodeKind.mentions at hc
  split at hc
  · rcases List.mem_append.mp hc with hc | hc
    · exact h.param_lt hk hc
    · exact h.child_lt hk hc
  · rcases List.mem_append.mp hc with hc | hc
    · exact h.child_lt hk hc
    · exact h.entry_lt hk hc

/-- A block has a result in its table if and only if it is the body of a function. -/
theorem result_iff (h : t.WellFormed) {b : NodeId} {stmts : List NodeId} {table : NameTable}
    (hk : t.kind? b = some (.block stmts table)) :
    (∃ e ∈ table.entries, t.kind? e.2 = some (.definition .result)) ↔
      ∃ f name params, t.kind? f = some (.definition (.func name params b)) := by
  constructor
  · rintro ⟨e, he, hr⟩
    obtain ⟨f, name, params, body, _, _, hf, hBody, hm⟩ := h.result_in e.2 hr
    -- The entry stands in one table only, so the function's body is this block.
    obtain rfl := h.entry_unique hk hBody (List.mem_map.mpr ⟨e, he, rfl⟩) hm
    exact ⟨f, name, params, hf⟩
  · rintro ⟨f, name, params, hf⟩
    obtain ⟨_, _, hBlock, hg⟩ := (h.fits f _ hf).body _ b rfl rfl
    rw [hk] at hBlock
    cases hBlock
    obtain ⟨-, r, hr, hGiven⟩ := hg
    have hm : r ∈ t.given table := by simp [hGiven]
    obtain ⟨e, he, rfl⟩ := List.mem_map.mp (List.mem_filter.mp hm).1
    exact ⟨e, he, hr⟩

/-- A definition among the statements of a block is a variable of its table. -/
theorem stmt_variable (h : t.WellFormed) {b id : NodeId} {stmts : List NodeId} {table : NameTable}
    {d : Definition} (hk : t.kind? b = some (.block stmts table)) (hid : id ∈ stmts)
    (hd : t.kind? id = some (.definition d)) : ∃ name, d = .var name ∧ (name, id) ∈ table.entries := by
  have hVar : ∃ name, d = .var name := by
    have hv := h.child_variable hk hid hd
    cases d <;> first | exact ⟨_, rfl⟩ | cases hv
  obtain ⟨name, rfl⟩ := hVar
  obtain ⟨⟨key, i⟩, he, rfl⟩ := List.mem_map.mp (h.child_entry hk hid hd)
  obtain ⟨e, hke, hn⟩ := h.declared_name _ (mem_declared_iff.mpr ⟨b, _, hk, he⟩)
  rw [hd] at hke
  cases hke
  obtain rfl : name = key := hn
  exact ⟨name, rfl, he⟩

end WellFormed

end Tree

/-- The tree of a script is a tree with exact tables.  The root comes last, and a node names
earlier nodes only.  A node that is no definition is a part at one place, the root apart.  A
definition has one entry in all tables, under its name, and an entry is one of a definition.
The definitions among the statements of a block are variables of its table.  A callable has as
parameters those of its body's table, in the order in which they were made and in which the
table has them.  A table has a result if and only if it is that of a function's body. -/
theorem parse_exact_tables {tokens : List Token} {file : String} {host : Host} {tree : Tree}
    (h : parse tokens file host = .ok tree) :
    tree.root + 1 = tree.size ∧
    (∀ id k, tree.kind? id = some k → ∀ i ∈ k.mentions, i < id) ∧
    (∀ id k, tree.kind? id = some k → k.isDefinition = false → id ≠ tree.root →
      ∃! place, tree.part? place = some id) ∧
    (∀ id d, tree.kind? id = some (.definition d) →
      ∃ place, tree.entry? place = some (d.name, id) ∧
        ∀ other name, tree.entry? other = some (name, id) → other = place ∧ name = d.name) ∧
    (∀ place name id, tree.entry? place = some (name, id) →
      ∃ d, tree.kind? id = some (.definition d) ∧ d.name = name) ∧
    (∀ b stmts table, tree.kind? b = some (.block stmts table) → ∀ id ∈ stmts, ∀ d,
      tree.kind? id = some (.definition d) → ∃ name, d = .var name ∧ (name, id) ∈ table.entries) ∧
    (∀ f d b, tree.kind? f = some (.definition d) → d.body? = some b →
      ∃ stmts table, tree.kind? b = some (.block stmts table) ∧
        d.params = (table.entries.map Prod.snd).filter tree.isParam ∧
        d.params.Pairwise (· < ·)) ∧
    (∀ b stmts table, tree.kind? b = some (.block stmts table) →
      ((∃ e ∈ table.entries, tree.kind? e.2 = some (.definition .result)) ↔
        ∃ f name params, tree.kind? f = some (.definition (.func name params b)))) := by
  have hTree := parse_wellFormed h
  refine ⟨hTree.root_last, fun id k hk i hi => hTree.mention_lt hk hi,
    fun id k hk hd hr => hTree.exists_unique_part hk hd hr,
    fun id d hk => hTree.exists_unique_entry hk, ?_,
    fun b stmts table hk id hid d hd => hTree.stmt_variable hk hid hd,
    fun f d b hk hb => hTree.params_eq hk hb, fun b stmts table hk => hTree.result_iff hk⟩
  rintro ⟨i, n⟩ name id he
  obtain ⟨k, hk, hm⟩ := Tree.entry?_eq_some_iff.mp he
  exact hTree.declared_name _ (Tree.mem_declared_iff.mpr ⟨i, k, hk, List.mem_of_getElem? hm⟩)

theorem parse_exact_tables_function : ∃ tokens tree,
    tokenize "function f(a, b) \x7b let y; result = a; \x7d let x; x = f(sin(x), b);" "a" = .ok tokens ∧
    parse tokens "a" ⟨[⟨"sin", 1, .real, true⟩], [⟨"pi", .real⟩]⟩ = .ok tree ∧
    tree.kind? 10 = some (.definition (.func "f" [2, 3] 9)) ∧
    (∃ place, tree.entry? place = some ("f", 10) ∧
      ∀ other name, tree.entry? other = some (name, 10) → other = place ∧ name = "f") ∧
    ∃ stmts table, tree.kind? 9 = some (.block stmts table) ∧
      [2, 3] = (table.entries.map Prod.snd).filter tree.isParam ∧
      ((∃ e ∈ table.entries, tree.kind? e.2 = some (.definition .result)) ↔
        ∃ f name params, tree.kind? f = some (.definition (.func name params 9))) := by
  have hRun : (do
      let tokens ←
        tokenize "function f(a, b) \x7b let y; result = a; \x7d let x; x = f(sin(x), b);" "a"
      let tree ← parse tokens "a" ⟨[⟨"sin", 1, .real, true⟩], [⟨"pi", .real⟩]⟩
      pure (tree.kind? 10)) = Except.ok (some (.definition (.func "f" [2, 3] 9))) := by
    cbv
  obtain ⟨tokens, hTokens, hRun⟩ := exists_of_bind_eq_ok hRun
  obtain ⟨tree, hTree, hFunc⟩ := exists_of_bind_eq_ok hRun
  have hFunc : tree.kind? 10 = some (.definition (.func "f" [2, 3] 9)) := Except.ok.inj hFunc
  obtain ⟨-, -, -, hEntry, -, -, hParams, hResult⟩ := parse_exact_tables hTree
  obtain ⟨stmts, table, hBlock, hEq, -⟩ := hParams 10 _ 9 hFunc rfl
  exact ⟨tokens, tree, hTokens, hTree, hFunc, hEntry 10 _ hFunc, stmts, table, hBlock, hEq,
    hResult 9 stmts table hBlock⟩

end StageScript

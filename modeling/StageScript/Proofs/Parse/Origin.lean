import StageScript.Proofs.Parse.Runs

/-!
# Where definitions come from

No rule of the grammar makes a definition of the host.  The host makes them before a script is
parsed, so those of a parsed tree are the ones that the host has declared
(`mem_definitions_of_parse`).
-/

set_option synthInstance.maxSize 4000

namespace StageScript

theorem NodeKind.isHosted_definition (d : Definition) :
    (NodeKind.definition d).isHosted = d.isHost := by
  cases d <;> rfl

namespace Parse

/-- From `p` to `q` the tree grows, and nothing is added to it that only the host declares. -/
structure Unhosted (p q : Parser) : Prop where
  tree : p.tree.Extends q.tree
  added : ∀ {id : NodeId} {k : NodeKind}, p.tree.size ≤ id → q.tree.kind? id = some k →
    k.isHosted = false

namespace Unhosted

theorem of_tree_eq {p q : Parser} (h : q.tree = p.tree) : Unhosted p q := by
  refine ⟨h ▸ .refl _, fun hid hk => ?_⟩
  rw [h] at hk
  exact absurd (Tree.lt_size_of_kind? hk) (Nat.not_lt_of_le hid)

theorem trans {p q r : Parser} (h : Unhosted p q) (g : Unhosted q r) : Unhosted p r := by
  refine ⟨h.tree.trans g.tree, fun {id k} hid hk => ?_⟩
  rcases Nat.lt_or_ge id q.tree.size with hLess | hLarge
  · rw [g.tree.kind?_of_lt hLess] at hk
    exact h.added hid hk
  · exact g.added hLarge hk

theorem push (p : Parser) {k : NodeKind} (hk : k.isHosted = false) (span : Span) :
    Unhosted p { p with tree := p.tree.push ⟨k, span⟩ } := by
  refine ⟨.push _ _, fun {id l} hid hl => ?_⟩
  have hLess : id < p.tree.size + 1 := by simpa using Tree.lt_size_of_kind? hl
  obtain rfl : id = p.tree.size := Nat.le_antisymm (Nat.le_of_lt_succ hLess) hid
  rw [Tree.kind?_push_size] at hl
  exact Option.some.inj hl ▸ hk

end Unhosted

instance walks_unhosted : Walks Unhosted where
  refl _ := .of_tree_eq rfl
  trans := .trans
  advance _ := .of_tree_eq rfl
  declare _ := .of_tree_eq rfl
  nested h := ⟨h.tree, h.added⟩
  block h _ := ⟨h.tree, h.added⟩

instance bearsScript_unhosted : BearsScript Unhosted :=
  ⟨fun _ hk => ⟨fun p span => .push p hk span⟩⟩

instance runs_blockAt_unhosted (levels : Nat) (decls : List NodeId) :
    Runs Unhosted (blockAt levels decls) := by
  induction levels generalizing decls with
  | zero =>
    unfold blockAt
    infer_instance
  | succ levels ih =>
    exact runs_blockWith ⟨exprAt levels, blockAt levels⟩ decls fun _ _ => inferInstance

end Parse

/-- The definitions behind which a script is parsed. -/
theorem Parser.mem_of_hosting {tokens : List Token} {file : String} {grammar : Bool}
    {ds : List Definition} {span : Span} {id : NodeId} {d : Definition}
    (h : ((Parser.start tokens file grammar).hosting ds span).tree.kind? id =
      some (.definition d)) : d ∈ ds := by
  obtain ⟨node, hNode, hKind⟩ := Tree.kind?_eq_some_iff.mp h
  have hMem : node ∈ ((#[] : Array Node) ++ (ds.map fun e => ⟨.definition e, span⟩).toArray) :=
    Array.mem_of_getElem? hNode
  rw [Array.empty_append, List.mem_toArray, List.mem_map] at hMem
  obtain ⟨e, he, rfl⟩ := hMem
  cases hKind
  exact he

/-- The definitions of the host in a parsed tree are declared by the host. -/
theorem mem_definitions_of_parse {tokens : List Token} {file : String} {host : Host} {tree : Tree}
    (h : parse tokens file host = .ok tree) {id : NodeId} {d : Definition}
    (hk : tree.kind? id = some (.definition d)) (hd : d.isHost = true) : d ∈ host.definitions := by
  obtain ⟨r, s, ids, hHost, hStmts, rfl⟩ := Parse.parse_eq_ok h
  have hStart : r = _ := Parse.declareAll_eq_ok hHost
  have hInner : ∀ decls, Parse.Runs Parse.Unhosted ((Parse.innerOf r).block decls) :=
    Parse.runs_blockAt_unhosted _
  have hExpr : ∀ power, Parse.Runs Parse.Unhosted ((Parse.innerOf r).expr power) :=
    Parse.runs_exprAt _
  have hUnhosted : Parse.Unhosted r s := Parse.Runs.related hStmts
  rcases Nat.lt_trichotomy id s.tree.size with hLess | rfl | hLarge
  · rw [Tree.kind?, Parser.closed_get?_of_lt hLess, ← Tree.kind?] at hk
    rcases Nat.lt_or_ge id r.tree.size with hFirst | hLater
    · rw [hUnhosted.tree.kind?_of_lt hFirst, hStart] at hk
      exact Parser.mem_of_hosting hk
    · have hAdded := hUnhosted.added hLater hk
      rw [NodeKind.isHosted_definition, hd] at hAdded
      cases hAdded
  · rw [Tree.kind?, Parser.closed_get?_size] at hk
    cases hk
  · rw [Tree.kind?, Parser.closed_get?_of_gt hLarge] at hk
    cases hk

end StageScript

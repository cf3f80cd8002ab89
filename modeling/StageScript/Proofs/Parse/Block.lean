import StageScript.Proofs.Parse.Making

/-!
# Declarations and blocks keep the ledger

A declaration adds a definition and puts it into the table of the innermost open block.  A
block is opened with an empty table, takes the definitions it is given, parses its
statements, and is closed: its table leaves the open ones and stays with the node.
-/

namespace StageScript.Parse

def MakesStmts (step : Parse (List NodeId)) : Prop :=
  ∀ base held stmts loose, Triple (At base held stmts loose) step fun ids s =>
    At base held (stmts ++ ids) loose s ∧ ∀ id ∈ ids, s.Statement id

def MakesStmt (step : Parse (Option NodeId)) : Prop :=
  ∀ base held stmts loose, Triple (At base held stmts loose) step fun found s =>
    At base held (stmts ++ found.toList) loose s ∧ ∀ id ∈ found.toList, s.Statement id

theorem Makes.stmt {step : Parse NodeId} (h : Makes step) : MakesStmt (some <$> step) := by
  intro base held stmts loose
  refine (h base held stmts loose).map fun id s hs => ⟨⟨hs.1, hs.2.settle⟩, ?_⟩
  intro i hi
  exact hs.2.statement_of_plain hi

/-! ### Declarations -/

section Declarations

variable {base : Store} {held stmts loose : List NodeId}

theorem Grows.declare {s : Store} {d : Definition} {id : NodeId} {table : NameTable}
    (hk : s.tree.kind? id = some (.definition d)) (hd : d.isGiven = false)
    (ht : s.table.declare? d.name id = some table) : s.Grows { s with table } := by
  have hTable : table = s.table.insert d.name id := by
    rw [NameTable.declare?] at ht
    split at ht
    · cases ht
    · exact (Option.some.inj ht).symm
  refine ⟨.refl _, rfl, ⟨[(d.name, id)], by rw [hTable]; rfl, ?_⟩, (Store.Grows.refl s).result⟩
  intro e he
  rw [List.mem_singleton.mp he]
  exact ⟨d, hk, hd⟩

/-- The loose definition made last is declared. -/
theorem bindName_last {d : Definition} {id : NodeId} (hd : d.isGiven = false)
    (position : Position) :
    Triple (fun s => At base held stmts (loose ++ [id]) s ∧ s.tree.kind? id = some (.definition d))
      (bindName d.name id position) fun i s => At base held stmts loose s ∧ i = id ∧
        s.tree.kind? id = some (.definition d) ∧ id ∈ s.table.entries.map Prod.snd := by
  rintro p ⟨hp, hk⟩
  rw [bindName]
  split
  · rename_i table ht
    have h := hp.2.declare hk ht
    rw [List.append_nil] at h
    obtain ⟨new, hNew, -⟩ := (Grows.declare hk hd ht).table
    refine ⟨⟨hp.1.trans (Grows.declare hk hd ht), h⟩, rfl, hk, ?_⟩
    rw [NameTable.declare?] at ht
    split at ht
    · cases ht
    · rw [← Option.some.inj ht]
      simp [Parser.store, NameTable.insert]
  · rfl

/-- A callable is declared.  Its body is held last, and its parameters are what the body was
given. -/
theorem declare_callable {d : Definition} {body : NodeId} (hd : d.isGiven = false)
    (hb : d.body? = some body) (span : Span) :
    Triple (fun s => At base (held ++ [body]) stmts loose s ∧
        ∃ ids table, s.tree.kind? body = some (.block ids table) ∧ s.tree.Gives d (s.tree.given table))
      (declare d span) fun id s =>
        At base held stmts loose s ∧ s.tree.kind? id = some (.definition d) := by
  have hNot : d ≠ .result := by
    rintro rfl
    cases hb
  have hPush : Triple (fun s => At base (held ++ [body]) stmts loose s ∧
        ∃ ids table, s.tree.kind? body = some (.block ids table) ∧ s.tree.Gives d (s.tree.given table))
      (push (.definition d) span) fun id s =>
        At base held stmts (loose ++ [id]) s ∧ s.tree.kind? id = some (.definition d) := by
    rintro p ⟨hp, hBody⟩
    have h : Accounted p.store (held ++ d.body?.toList) stmts loose := by
      simpa [hb] using hp.2
    refine ⟨⟨hp.1.trans (.push _ (by simpa using hNot)), h.push_definition ?_ span⟩,
      Tree.kind?_push_size _ _⟩
    intro b he
    rw [hb] at he
    cases he
    exact hBody
  refine hPush.bind fun id => (bindName_last hd _).weaken fun i s hs => ⟨hs.1, ?_⟩
  rw [hs.2.1]
  exact hs.2.2.1

/-- A variable is declared.  It can then be a statement. -/
theorem declare_variable (name : String) (span : Span) :
    Triple (At base held stmts loose) (declare (.var name) span) fun id s =>
      At base held stmts loose s ∧ At base held (stmts ++ [id]) loose s ∧ s.Statement id := by
  have hPush : Triple (At base held stmts loose) (push (.definition (.var name)) span) fun id s =>
      (At base held stmts (loose ++ [id]) s ∧ s.tree.kind? id = some (.definition (.var name))) ∧
        At base held (stmts ++ [id]) (loose ++ [id]) s := by
    intro p hp
    have h : Accounted p.store (held ++ (Definition.var name).body?.toList) stmts loose := by
      simpa [Definition.body?] using hp.2
    have hGrows : base.Grows (p.store.push ⟨.definition (.var name), span⟩) :=
      hp.1.trans (.push _ (by simp))
    exact ⟨⟨⟨hGrows, h.push_definition (by simp [Definition.body?]) span⟩,
      Tree.kind?_push_size _ _⟩, hGrows, hp.2.push_variable name span⟩
  refine hPush.bind fun id p hp => ?_
  -- One run of the step serves both ledgers.
  have hOne := bindName_last (d := .var name) rfl span.start p hp.1
  have hTwo := bindName_last (d := .var name) rfl span.start p ⟨hp.2, hp.1.2⟩
  change Meets _ (bindName (Definition.var name).name id span.start p)
  cases hr : bindName (Definition.var name).name id span.start p with
  | ok i q =>
    rw [hr] at hOne hTwo
    obtain ⟨hOne, rfl, hk, hm⟩ := hOne
    refine ⟨hOne, hTwo.1, ?_⟩
    intro d hd
    rw [hk] at hd
    cases hd
    exact ⟨rfl, hm⟩
  | fail d q =>
    rw [hr] at hOne
    exact hOne

end Declarations

/-! ### Opening a block -/

/-- The store of a block that has just declared `decls`. -/
structure Opened (tree : Tree) (outer : Chain) (decls : List NodeId) (s : Store) : Prop where
  tree : s.tree = tree
  outer : s.outer = outer
  table : s.table.entries.map Prod.snd = decls

theorem declareExisting_eq {p : Parser} {id : NodeId} {d : Definition}
    (hk : p.tree.kind? id = some (.definition d)) :
    ∃ position, declareExisting id p = bindName d.name id position p := by
  obtain ⟨node, hn, -⟩ := Tree.kind?_eq_some_iff.mp hk
  have hNode : p.tree.node id = .ok node := Tree.node_of_get? hn
  have hDef : p.tree.definition id = .ok d := Tree.definition_of_kind? hk
  exact ⟨node.span.start, by simp only [declareExisting, bind, lookup, hNode, hDef]⟩

theorem declareExisting_opened {tree : Tree} {outer : Chain} {done rest held stmts loose : List NodeId}
    {id : NodeId} :
    Triple (fun s => Accounted s held stmts (loose ++ id :: rest) ∧ Opened tree outer done s)
      (declareExisting id) fun _ s =>
        Accounted s held stmts (loose ++ rest) ∧ Opened tree outer (done ++ [id]) s := by
  rintro p ⟨h, ho⟩
  obtain ⟨d, hk⟩ := h.loose_def id (by simp)
  obtain ⟨position, hRun⟩ := declareExisting_eq (p := p) hk
  rw [hRun, bindName]
  split
  · rename_i table ht
    refine ⟨h.declare hk ht, ho.tree, ho.outer, ?_⟩
    rw [NameTable.declare?] at ht
    split at ht
    · cases ht
    · rw [← Option.some.inj ht, ← ho.table]
      simp [Parser.store, NameTable.insert]
  · rfl

theorem declareAll_opened {tree : Tree} {outer : Chain} {held stmts loose : List NodeId}
    (rest : List NodeId) : ∀ done,
    Triple (fun s => Accounted s held stmts (loose ++ rest) ∧ Opened tree outer done s)
      (rest.forM fun id => do
        let _ ← declareExisting id)
      fun _ s => Accounted s held stmts loose ∧ Opened tree outer (done ++ rest) s := by
  induction rest with
  | nil =>
    intro done
    exact .pure fun s hs => by simpa using hs
  | cons id rest ih =>
    intro done
    have hFirst : Triple (fun s => Accounted s held stmts (loose ++ id :: rest) ∧
          Opened tree outer done s)
        (do let _ ← declareExisting id) fun _ s =>
          Accounted s held stmts (loose ++ rest) ∧ Opened tree outer (done ++ [id]) s :=
      declareExisting_opened.bind fun _ => .pure fun _ hs => hs
    refine hFirst.bind fun _ => (ih (done ++ [id])).weaken fun _ s hs => ?_
    simpa using hs

/-! ### Closing a block -/

/-- What was declared by statements is not given. -/
theorem given_of_grows {a b : Store} {decls : List NodeId} (h : a.Grows b)
    (hd : a.table.entries.map Prod.snd = decls) (hg : Given a decls) :
    b.tree.given b.table = decls := by
  obtain ⟨new, hNew, hn⟩ := h.table
  rw [Tree.given, hNew, List.map_append, List.filter_append, hd]
  have hOld : decls.filter b.tree.isGiven = decls := by
    refine List.filter_eq_self.mpr fun id hid => ?_
    obtain ⟨d, hk, hGiven⟩ := hg id hid
    rw [Tree.isGiven_of_kind? (h.tree.kind? hk), hGiven]
  have hRest : (new.map Prod.snd).filter b.tree.isGiven = [] := by
    refine List.filter_eq_nil_iff.mpr fun id hid => ?_
    obtain ⟨e, he, rfl⟩ := List.mem_map.mp hid
    obtain ⟨d, hk, hGiven⟩ := hn e he
    simp [Tree.isGiven_of_kind? hk, hGiven]
  rw [hOld, hRest, List.append_nil]

/-- The end of a block that was opened as `inner` in a block with the store `s₀`. -/
theorem close_block {base s₀ inner : Store} {ids decls held stmts loose : List NodeId}
    (hBase : base.Grows s₀) (hTree : inner.tree = s₀.tree) (hOuter : inner.outer = s₀.table :: s₀.outer)
    (hDecls : inner.table.entries.map Prod.snd = decls) (hGiven : Given inner decls)
    (start : Position) :
    Triple (fun s => At inner held (stmts ++ ids) loose s ∧ ∀ id ∈ ids, s.Statement id)
      (do
        let table ← popScope
        leave
        pushFrom start (.block ids table))
      fun id s => At base (held ++ [id]) stmts loose s ∧ IsBlock s decls id := by
  rintro p ⟨⟨hg, ha⟩, hs⟩
  have hOut : p.outer = s₀.table :: s₀.outer := hg.outer.trans hOuter
  have hPop : popScope p = .ok p.table { p with table := s₀.table, outer := s₀.outer } := by
    rw [popScope, hOut]
  have hKeys : ∀ t ∈ s₀.table :: s₀.outer, (t.entries.map Prod.fst).Nodup := by
    intro t ht
    rw [← hOut] at ht
    exact ha.keys t (List.mem_cons_of_mem _ ht)
  have hOpen : p.store.outer.flatMap NameTable.entries =
      s₀.table.entries ++ s₀.outer.flatMap NameTable.entries := by
    change p.outer.flatMap _ = _
    rw [hOut, List.flatMap_cons]
  simp only [bind, hPop, leave, change, pushFrom, look, push]
  set span : Span := _
  refine ⟨⟨hBase.trans ⟨?_, rfl, ⟨[], by simp [Parser.store]⟩, ?_⟩, ?_⟩, ids, p.table, ?_, ?_⟩
  · exact (hTree ▸ hg.tree).trans (.push _ _)
  · exact Store.Grows.result_push (by simp) (hTree ▸ hg.result)
  · exact ha.close_block hs hOpen hKeys span
  · exact Tree.kind?_push_size _ _
  · refine Eq.trans (Tree.Extends.given (.push _ _) ?_) (given_of_grows hg hDecls hGiven)
    intro e he
    exact ha.entry_lt (List.mem_append_right _ (List.mem_append_left _ he))

end StageScript.Parse

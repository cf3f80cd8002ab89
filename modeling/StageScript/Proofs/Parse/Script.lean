import StageScript.Parse.Script
import StageScript.Proofs.Parse.Stmt

/-!
# Parsed trees are well-formed

The parser starts with an empty ledger, declares what the host provides, parses the
statements of the script and closes the root block.  Then no definition is loose, and the
root is the only node held: the tree is well-formed (`parse_wellFormed`).  A parse that
fails never blames the tree (`parse_not_fatal`).
-/

namespace StageScript

namespace Parse

theorem declare_host {d : Definition} (hb : d.body? = none) (hd : d.isGiven = false) (span : Span)
    {base : Store} {held stmts loose : List NodeId} :
    Triple (At base held stmts loose) (declare d span) fun _ => At base held stmts loose :=
  (push_loose hb (by rintro rfl; cases hd) span).bind fun _ =>
    (bindName_last hd _).weaken fun _ _ hs => hs.1

theorem declareAll_host {span : Span} {base : Store} {held stmts loose : List NodeId}
    (ds : List Definition) (h : ∀ d ∈ ds, d.body? = none ∧ d.isGiven = false) :
    Triple (At base held stmts loose)
      (ds.forM fun d => do
        let _ ← declare d span)
      fun _ => At base held stmts loose := by
  induction ds with
  | nil => exact .pure fun _ hs => hs
  | cons d ds ih =>
    obtain ⟨hb, hd⟩ := h d (List.mem_cons_self ..)
    have hFirst : Triple (At base held stmts loose) (do let _ ← declare d span)
        fun _ => At base held stmts loose :=
      (declare_host hb hd span).bind fun _ => .pure fun _ hs => hs
    exact hFirst.bind fun _ => ih fun e he => h e (List.mem_cons_of_mem _ he)

theorem host_definitions (host : Host) :
    ∀ d ∈ host.definitions, d.body? = none ∧ d.isGiven = false := by
  intro d hd
  rw [Host.definitions] at hd
  rcases List.mem_append.mp hd with hd | hd
  · obtain ⟨f, -, rfl⟩ := List.mem_map.mp hd
    exact ⟨rfl, rfl⟩
  · obtain ⟨c, -, rfl⟩ := List.mem_map.mp hd
    exact ⟨rfl, rfl⟩

end Parse

open Parse

/-- The root does not matter for what fits. -/
theorem NodeKind.Fits.root {t : Tree} {id : NodeId} {k : NodeKind} (h : k.Fits t id)
    (root : NodeId) : k.Fits { t with root } id := by
  refine ⟨h.child_lt, h.entry_lt, h.names_nodup, h.child_var, fun d b hd hb => ?_⟩
  obtain ⟨stmts, table, hk, hg⟩ := h.body d b hd hb
  have hSame : t.Extends { t with root } := List.prefix_refl _
  exact ⟨stmts, table, hk, hg.mono hSame⟩

/-- A closed ledger with the root as its only held node is a well-formed tree. -/
theorem Accounted.wellFormed {t : Tree} {root : NodeId} {ids : List NodeId} {table : NameTable}
    (h : Accounted ⟨t, NameTable.empty, []⟩ [root] [] []) (hLast : root + 1 = t.size)
    (hk : t.kind? root = some (.block ids table))
    (hResult : ∀ r, t.kind? r = some (.definition .result) → t.InFunction r) :
    ({ t with root } : Tree).WellFormed where
  root_last := hLast
  root_block := ⟨ids, table, hk⟩
  fits id k hid := (h.fits id k hid).root root
  parts_nodup := by
    have := h.owned
    rw [List.append_nil] at this
    exact this.of_append_left
  mem_parts := by
    intro id k hid hd hne
    have := h.mem_owned id k hid hd
    rw [List.append_nil] at this
    rcases List.mem_append.mp this with hm | hm
    · exact hm
    · exact absurd (List.mem_singleton.mp hm) hne
  declared_nodup := by
    have : (t.declared.map Prod.snd).Nodup := by
      simpa [Store.entries, NameTable.empty] using h.named
    exact this
  mem_declared := by
    intro id d hid
    have : id ∈ t.declared.map Prod.snd := by
      simpa [Store.entries, NameTable.empty] using h.mem_named id d hid
    exact this
  declared_name := by
    intro e he
    exact h.entry e (List.mem_append_left _ he)
  result_in := hResult

namespace Parse

/-- The end of a script: the root block is closed. -/
theorem close_root {base : Store} (hBase : base.outer = []) (hEmpty : base.tree.size = 0)
    (ids : List NodeId) (origin : Position) :
    Triple (fun s => At base [] ids [] s ∧ ∀ id ∈ ids, s.Statement id)
      (do
        let table ← popScope
        let root ← pushFrom origin (.block ids table)
        change fun p => { p with tree := { p.tree with root } })
      fun _ s => s.tree.WellFormed := by
  rintro p ⟨⟨hg, ha⟩, hs⟩
  have hOut : p.outer = [] := hg.outer.trans hBase
  have hPop : popScope p = .ok p.table { p with table := NameTable.empty, outer := [] } := by
    rw [popScope, hOut]
  have hOpen : p.store.outer.flatMap NameTable.entries =
      NameTable.empty.entries ++ ([] : Chain).flatMap NameTable.entries := by
    change p.outer.flatMap _ = _
    rw [hOut]
    rfl
  have hKeys : ∀ t ∈ NameTable.empty :: ([] : Chain), (t.entries.map Prod.fst).Nodup := by
    simp [NameTable.empty]
  simp only [bind, hPop, pushFrom, look, push, change]
  have hClosed : ∀ span, Accounted ⟨p.tree.push ⟨.block ids p.table, span⟩, NameTable.empty, []⟩
      ([] ++ [p.tree.size]) [] [] := ha.close_block hs hOpen hKeys
  refine (hClosed _).wellFormed (Tree.size_push _ _).symm (Tree.kind?_push_size _ _) fun r hr => ?_
  rcases Store.Grows.result_push (by simp) hg.result r hr with hlt | hIn
  · rw [hEmpty] at hlt
    exact absurd hlt (Nat.not_lt_zero r)
  · exact hIn

theorem script_wellFormed (host : Host) :
    Triple (fun s => s = ⟨Tree.empty, NameTable.empty, []⟩) (script host)
      fun _ s => s.tree.WellFormed := by
  refine (reads_look _).bind fun origin => ?_
  have hStart : ∀ s : Store, s = ⟨Tree.empty, NameTable.empty, []⟩ →
      At ⟨Tree.empty, NameTable.empty, []⟩ [] [] [] s := by
    rintro s rfl
    exact ⟨.refl _, .empty⟩
  refine Triple.strengthen ?_ hStart
  refine (declareAll_host host.definitions (host_definitions host)).bind fun _ => ?_
  have hStmts : Triple (At ⟨Tree.empty, NameTable.empty, []⟩ [] [] [])
      (here fun inner => do stmts inner (fun _ => false) (← look Parser.rounds))
      fun ids s => At ⟨Tree.empty, NameTable.empty, []⟩ [] ids [] s ∧
        ∀ id ∈ ids, s.Statement id := fun p hp =>
    makesStmts_stmts (sound_innerOf p) (fun _ => false) p.rounds _ [] [] [] p hp
  exact hStmts.bind fun ids => close_root rfl rfl ids origin

end Parse

/-- The tree of a parsed script is well-formed. -/
theorem parse_wellFormed {tokens : List Token} {file : String} {host : Host} {tree : Tree}
    (h : parse tokens file host = .ok tree) : tree.WellFormed := by
  have hs := script_wellFormed host (Parser.start tokens file true) rfl
  rw [parse] at h
  cases hr : script host (Parser.start tokens file true) with
  | ok a q =>
    rw [hr] at h hs
    cases h
    exact hs
  | fail d q =>
    rw [hr] at h
    cases h

/-- What is wrong with the tokens of a script is a fault of the script, not of the tree. -/
theorem parse_not_fatal {tokens : List Token} {file : String} {host : Host} {d : Diagnostic}
    (h : parse tokens file host = .error d) : d.isFatal = false := by
  have hs := script_wellFormed host (Parser.start tokens file true) rfl
  rw [parse] at h
  cases hr : script host (Parser.start tokens file true) with
  | ok a q =>
    rw [hr] at h
    cases h
  | fail e q =>
    rw [hr] at h hs
    cases h
    exact hs

/-- A stage that went well had what it needs from the stage before. -/
theorem exists_of_bind_eq_ok {ε α β : Type} {x : Except ε α} {f : α → Except ε β} {b : β}
    (h : x >>= f = .ok b) : ∃ a, x = .ok a ∧ f a = .ok b := by
  cases x with
  | error e => cases h
  | ok a => exact ⟨a, rfl, h⟩

end StageScript

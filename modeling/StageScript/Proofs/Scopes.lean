import Mathlib
import StageScript.Scope.Forest

/-!
# Looking names up in shared scopes

A forest grows by actions: scopes are opened inside earlier ones, names are declared in them, and
their tables are taken away, in any order and at any time (`Forest.Reached`).  Whatever was done,
a name is looked up along the chain of parents (`Forest.outward`) as in a stack of tables: what
counts is the nearest scope that has the name (`Forest.Consults`), and a new declaration is seen at
once from every scope that is not shielded from it by a nearer one (`Forest.reached_stacked`).

What actions keep is that the scopes around a scope are its parent and those around the parent
(`Forest.Linked`).
-/

namespace StageScript

theorem NameTable.find?_insert (t : NameTable) (name : String) (d : NodeId) (n : String) :
    (t.insert name d).find? n = (t.find? n).or (if n = name then some d else none) := by
  rw [find?, insert, List.lookup_append, ← find?]
  by_cases h : n = name
  · simp [h]
  · simp [h, List.lookup_cons, beq_false_of_ne h]

namespace Forest

/-! ### Actions -/

inductive Action where
  /-- Opens a scope over a table, inside another one or as a root. -/
  | add (table : NameTable) (parent : Option ScopeId)
  | declare (id : ScopeId) (name : String) (d : NodeId) (position : Position)
  | take (id : ScopeId)

def Action.Allowed (f : Forest) : Action → Prop
  | add _ parent => ∀ p ∈ parent, p < f.scopes.size
  | declare id _ _ _ => id < f.scopes.size
  | take id => id < f.scopes.size

/-- The forest after an action.  A declaration that is refused changes nothing. -/
def act (f : Forest) : Action → Forest
  | .add table parent => (f.add table parent).1
  | .declare id name d position =>
    match f.declare id name d position with
    | .ok g => g
    | .error _ => f
  | .take id => (f.take id).2

/-- A forest that actions made out of nothing. -/
inductive Reached : Forest → Prop
  | empty : Reached Forest.empty
  | act {f : Forest} {a : Action} : Reached f → a.Allowed f → Reached (f.act a)

/-! ### Chains of parents -/

def outward (f : Forest) : Nat → ScopeId → Option ScopeId
  | 0, id => some id
  | n + 1, id => (f.parent? id).bind (f.outward n)

/-- A look-up of the name from `id` comes to `s`: it is on the chain of parents, and no nearer
scope has the name. -/
def Consults (f : Forest) (id : ScopeId) (name : String) (s : ScopeId) : Prop :=
  ∃ n, f.outward n id = some s ∧ ∀ m < n, ∀ r, f.outward m id = some r → f.own? r name = none

/-- The scopes around a scope are its parent, which is older, and those around the parent. -/
def Linked (f : Forest) : Prop :=
  ∀ id p rest, (f.scope id).ancestors = p :: rest → p < id ∧ (f.scope p).ancestors = rest

variable {f : Forest} {id s : ScopeId} {name : String} {d : NodeId}

theorem Linked.outward_eq (h : f.Linked) (n : Nat) (id : ScopeId) :
    f.outward n id = (f.lineage id)[n]? := by
  induction n generalizing id with
  | zero => rfl
  | succ n ih =>
    rw [outward, parent?, lineage, List.getElem?_cons_succ]
    cases hAround : (f.scope id).ancestors with
    | nil => rfl
    | cons p rest =>
      rw [List.head?_cons, Option.bind_some, ih p, lineage, (h id p rest hAround).2]

/-- The scopes around a scope are older and older. -/
theorem Linked.pairwise_lineage (h : f.Linked) (id : ScopeId) :
    (f.lineage id).Pairwise (· > ·) := by
  induction id using Nat.strong_induction_on with
  | _ id ih =>
    rw [lineage]
    cases hAround : (f.scope id).ancestors with
    | nil => exact List.pairwise_singleton _ _
    | cons p rest =>
      obtain ⟨hOlder, hRest⟩ := h id p rest hAround
      have hOuter : (p :: rest).Pairwise (· > ·) := hRest ▸ ih p hOlder
      refine List.pairwise_cons.mpr ⟨fun r hr => ?_, hOuter⟩
      rcases List.mem_cons.mp hr with rfl | hr
      · exact hOlder
      · exact (List.rel_of_pairwise_cons hOuter hr).trans hOlder

theorem getElem?_first_iff {α : Type} {P : α → Prop} {l : List α} {a : α} :
    (∃ n : Nat, l[n]? = some a ∧ ∀ m < n, ∀ b, l[m]? = some b → P b) ↔
      ∃ before after, l = before ++ a :: after ∧ ∀ b ∈ before, P b := by
  constructor
  · rintro ⟨n, hn, hBefore⟩
    obtain ⟨hLt, rfl⟩ := List.getElem?_eq_some_iff.mp hn
    refine ⟨l.take n, l.drop (n + 1), ?_, fun b hb => ?_⟩
    · rw [← List.drop_eq_getElem_cons hLt, List.take_append_drop]
    · obtain ⟨m, hm, rfl⟩ := List.mem_take_iff_getElem.mp hb
      exact hBefore m (by omega) _ (List.getElem?_eq_getElem _)
  · rintro ⟨before, after, rfl, hBefore⟩
    refine ⟨before.length, by simp, fun m hm b hb => hBefore b ?_⟩
    rw [List.getElem?_append_left hm] at hb
    exact List.mem_of_getElem? hb

theorem Linked.consults_iff (h : f.Linked) : f.Consults id name s ↔
    ∃ before after, f.lineage id = before ++ s :: after ∧ ∀ r ∈ before, f.own? r name = none := by
  simp only [Consults, h.outward_eq, getElem?_first_iff]

theorem Linked.mem_lineage_iff (h : f.Linked) :
    s ∈ f.lineage id ↔ ∃ n, f.outward n id = some s := by
  simp only [h.outward_eq, List.mem_iff_getElem?]

/-! ### Looking up -/

theorem find?_eq_map_declaring? (f : Forest) (id : ScopeId) (name : String) :
    f.find? id name = (f.declaring? id name).map Prod.snd := by
  rw [find?, declaring?, Chain.find?, List.findSome?_map, List.map_findSome?]
  congr 1
  funext s
  simp [own?, Option.map_map, Function.comp_def]

theorem declaring?_eq_some_iff (h : f.Linked) : f.declaring? id name = some (s, d) ↔
    f.Consults id name s ∧ f.own? s name = some d := by
  rw [h.consults_iff, declaring?, List.findSome?_eq_some_iff]
  simp only [Option.map_eq_some_iff, Option.map_eq_none_iff, Prod.mk.injEq]
  constructor
  · rintro ⟨before, r, after, hLineage, ⟨d', hOwn, rfl, rfl⟩, hBefore⟩
    exact ⟨⟨before, after, hLineage, hBefore⟩, hOwn⟩
  · rintro ⟨⟨before, after, hLineage, hBefore⟩, hOwn⟩
    exact ⟨before, s, after, hLineage, ⟨d, hOwn, rfl, rfl⟩, hBefore⟩

theorem declaring?_eq_none_iff (h : f.Linked) : f.declaring? id name = none ↔
    ∀ n r, f.outward n id = some r → f.own? r name = none := by
  rw [declaring?, List.findSome?_eq_none_iff]
  simp only [Option.map_eq_none_iff, h.mem_lineage_iff]
  exact ⟨fun hNone n r hr => hNone r ⟨n, hr⟩, fun hNone r hr => hr.elim fun n => hNone n r⟩

/-! ### What actions change -/

theorem scope_setTable (h : id < f.scopes.size) (table : NameTable) (s : ScopeId) :
    (f.setTable id table).scope s = if s = id then { f.scope id with table } else f.scope s := by
  rw [setTable, scope, Array.getElem?_modify]
  by_cases hs : s = id
  · subst hs
    simp [scope, h]
  · rw [if_neg (Ne.symm hs), if_neg hs]
    rfl

theorem own?_setTable (h : id < f.scopes.size) (table : NameTable) (s : ScopeId) (n : String) :
    (f.setTable id table).own? s n = if s = id then table.find? n else f.own? s n := by
  rw [own?, scope_setTable h]
  split <;> rfl

theorem ancestors_setTable (h : id < f.scopes.size) (table : NameTable) (s : ScopeId) :
    ((f.setTable id table).scope s).ancestors = (f.scope s).ancestors := by
  rw [scope_setTable h]
  split
  · subst s
    rfl
  · rfl

theorem lineage_setTable (h : id < f.scopes.size) (table : NameTable) (s : ScopeId) :
    (f.setTable id table).lineage s = f.lineage s := by
  rw [lineage, ancestors_setTable h, lineage]

theorem Linked.setTable (h : f.Linked) (hId : id < f.scopes.size) (table : NameTable) :
    (f.setTable id table).Linked := by
  intro s p rest hAround
  rw [ancestors_setTable hId] at hAround ⊢
  exact h s p rest hAround

theorem scope_add_new (f : Forest) (table : NameTable) (parent : Option ScopeId) :
    (f.add table parent).1.scope f.scopes.size =
      ⟨table, parent.elim [] fun p => p :: (f.scope p).ancestors⟩ := by
  simp only [add, scope, Array.getElem?_push_size, Option.getD_some]
  cases parent <;> rfl

theorem scope_add_of_ne (f : Forest) (table : NameTable) (parent : Option ScopeId)
    (h : s ≠ f.scopes.size) : (f.add table parent).1.scope s = f.scope s := by
  simp only [add, scope, Array.getElem?_push, if_neg h]

theorem lt_size_of_ancestors {p : ScopeId} {rest : List ScopeId}
    (h : (f.scope id).ancestors = p :: rest) : id < f.scopes.size := by
  by_contra hOut
  rw [scope, Array.getElem?_eq_none (Nat.le_of_not_lt hOut)] at h
  cases h

theorem Linked.add (h : f.Linked) (table : NameTable) {parent : Option ScopeId}
    (hParent : ∀ p ∈ parent, p < f.scopes.size) : (f.add table parent).1.Linked := by
  intro s p rest hAround
  by_cases hs : s = f.scopes.size
  · subst hs
    rw [scope_add_new] at hAround
    cases parent with
    | none => cases hAround
    | some q =>
      cases hAround
      have hOlder : p < f.scopes.size := hParent p rfl
      exact ⟨hOlder, by rw [scope_add_of_ne f table _ (Nat.ne_of_lt hOlder)]⟩
  · rw [scope_add_of_ne f table parent hs] at hAround
    have hSize := lt_size_of_ancestors hAround
    obtain ⟨hOlder, hRest⟩ := h s p rest hAround
    have hNe : p ≠ f.scopes.size := Nat.ne_of_lt (hOlder.trans hSize)
    exact ⟨hOlder, by rwa [scope_add_of_ne f table parent hNe]⟩

theorem declare_of_own? {e : NodeId} (h : f.own? id name = some e) (position : Position) :
    f.declare id name d position = .error ⟨.alreadyDeclared name, position⟩ := by
  have hFind : (f.scope id).table.find? name = some e := h
  rw [declare, NameTable.declare?, hFind]

theorem declare_of_free (h : f.own? id name = none) (position : Position) :
    f.declare id name d position = .ok (f.setTable id ((f.scope id).table.insert name d)) := by
  have hFind : (f.scope id).table.find? name = none := h
  rw [declare, NameTable.declare?, hFind]

theorem declare_eq_ok {position : Position} {g : Forest}
    (h : f.declare id name d position = .ok g) :
    f.own? id name = none ∧ g = f.setTable id ((f.scope id).table.insert name d) := by
  cases hOwn : f.own? id name with
  | none =>
    rw [declare_of_free hOwn] at h
    exact ⟨rfl, (Except.ok.inj h).symm⟩
  | some e =>
    rw [declare_of_own? hOwn] at h
    cases h

theorem Linked.act (h : f.Linked) {a : Action} (ha : a.Allowed f) : (f.act a).Linked := by
  cases a with
  | add table parent => exact h.add table ha
  | take id => exact h.setTable ha _
  | declare id name d position =>
    rw [Forest.act]
    cases hOwn : f.own? id name with
    | some e => rwa [declare_of_own? hOwn]
    | none =>
      rw [declare_of_free hOwn]
      exact h.setTable ha _

theorem Reached.linked (h : f.Reached) : f.Linked := by
  induction h with
  | empty =>
    exact fun _ _ _ hAround => absurd (lt_size_of_ancestors hAround) (Nat.not_lt_zero _)
  | act _ ha ih => exact ih.act ha

/-! ### Declaring -/

section Declared

variable (hLinked : f.Linked) (hId : id < f.scopes.size) (hFree : f.own? id name = none)

include hId hFree in
theorem own?_declared (s : ScopeId) (n : String) :
    (f.setTable id ((f.scope id).table.insert name d)).own? s n =
      if s = id ∧ n = name then some d else f.own? s n := by
  rw [own?_setTable hId, NameTable.find?_insert]
  by_cases hs : s = id
  · subst hs
    by_cases hn : n = name
    · subst hn
      have hFind : (f.scope s).table.find? n = none := hFree
      simp [hFind]
    · simp [hn, own?]
  · simp [hs]

/-- A change of one place in a list is not found behind a place where something is found. -/
theorem findSome?_of_shielded {α : Type} {F G : ScopeId → Option α} {l : List ScopeId}
    (id : ScopeId) (hSame : ∀ r, r ≠ id → G r = F r)
    (hShield : ∀ before after, l = before ++ id :: after → ∃ r ∈ before, F r ≠ none) :
    l.findSome? G = l.findSome? F := by
  induction l with
  | nil => rfl
  | cons a l ih =>
    have ha : a ≠ id := by
      rintro rfl
      obtain ⟨r, hr, -⟩ := hShield [] l rfl
      cases hr
    rw [List.findSome?_cons, List.findSome?_cons, hSame a ha]
    cases hF : F a with
    | some b => rfl
    | none =>
      refine ih fun before after hl => ?_
      obtain ⟨r, hr, hSome⟩ := hShield (a :: before) after (by rw [hl, List.cons_append])
      rcases List.mem_cons.mp hr with rfl | hr
      · exact absurd hF hSome
      · exact ⟨r, hr, hSome⟩

include hLinked hId hFree in
/-- From where no nearer scope has the name, the new declaration is found. -/
theorem declaring?_declared_of_consults (h : f.Consults s name id) :
    (f.setTable id ((f.scope id).table.insert name d)).declaring? s name = some (id, d) := by
  obtain ⟨before, after, hLineage, hBefore⟩ := hLinked.consults_iff.mp h
  have hNodup := hLinked.pairwise_lineage s
  rw [hLineage, List.pairwise_append] at hNodup
  refine (declaring?_eq_some_iff (hLinked.setTable hId _)).mpr ⟨?_, ?_⟩
  · refine (hLinked.setTable hId _).consults_iff.mpr
      ⟨before, after, (lineage_setTable hId _ s).trans hLineage, fun r hr => ?_⟩
    have hNe : r ≠ id := Nat.ne_of_gt (hNodup.2.2 r hr id List.mem_cons_self)
    rw [own?_declared hId hFree, if_neg fun hBoth => hNe hBoth.1]
    exact hBefore r hr
  · rw [own?_declared hId hFree, if_pos ⟨rfl, rfl⟩]

include hLinked hId hFree in
/-- All other look-ups are as before. -/
theorem declaring?_declared_of_not {n : String} (h : ¬(n = name ∧ f.Consults s name id)) :
    (f.setTable id ((f.scope id).table.insert name d)).declaring? s n = f.declaring? s n := by
  rw [declaring?, declaring?, lineage_setTable hId]
  by_cases hn : n = name
  · subst hn
    refine findSome?_of_shielded id (fun r hr => ?_) fun before after hLineage => ?_
    · rw [own?_declared hId hFree, if_neg fun hBoth => hr hBoth.1]
    · by_contra hNone
      push Not at hNone
      exact h ⟨rfl, hLinked.consults_iff.mpr ⟨before, after, hLineage, fun r hr =>
        Option.map_eq_none_iff.mp (hNone r hr)⟩⟩
  · congr 1
    funext r
    rw [own?_declared hId hFree, if_neg fun hBoth => hn hBoth.2]

include hLinked hId hFree in
/-- The look-ups that change are those of the name that come to the scope. -/
theorem declaring?_declared_ne_iff {n : String} :
    (f.setTable id ((f.scope id).table.insert name d)).declaring? s n ≠ f.declaring? s n ↔
      n = name ∧ f.Consults s name id := by
  constructor
  · intro hChanged
    by_contra hOther
    exact hChanged (declaring?_declared_of_not hLinked hId hFree hOther)
  · rintro ⟨rfl, hs⟩ hSame
    rw [declaring?_declared_of_consults hLinked hId hFree hs] at hSame
    have hOwn := ((declaring?_eq_some_iff hLinked).mp hSame.symm).2
    rw [hFree] at hOwn
    cases hOwn

end Declared

/-! ### Stacks of tables -/

/-- Names are looked up, declared and taken away as in a stack of tables that scopes share. -/
structure Stacked (f : Forest) : Prop where
  /-- A name stands for what the nearest scope that has it says. -/
  found : ∀ id name d,
    f.find? id name = some d ↔ ∃ s, f.Consults id name s ∧ f.own? s name = some d
  /-- The declaring scope is that scope. -/
  declaring : ∀ id name s d,
    f.declaring? id name = some (s, d) ↔ f.Consults id name s ∧ f.own? s name = some d
  /-- A name is not found if no scope on the chain has it. -/
  missing : ∀ id name,
    (f.find? id name = none ↔ ∀ n s, f.outward n id = some s → f.own? s name = none) ∧
      (f.declaring? id name = none ↔ ∀ n s, f.outward n id = some s → f.own? s name = none)
  depth : ∀ id, f.depth id = {s | ∃ n, f.outward (n + 1) id = some s}.ncard
  /-- A new scope has its table and its parent, and all others are as before. -/
  added : ∀ table parent, (f.add table parent).2 = f.scopes.size ∧
      ((f.add table parent).1.scope f.scopes.size).table = table ∧
      (f.add table parent).1.parent? f.scopes.size = parent ∧
      ∀ s, s ≠ f.scopes.size → (f.add table parent).1.scope s = f.scope s
  /-- A second declaration in a scope is refused and changes nothing. -/
  refused : ∀ id name d position,
    ((∃ e, f.declare id name d position = .error e) ↔ ∃ e, f.own? id name = some e) ∧
      ((∃ e, f.own? id name = some e) →
        ∀ s, (f.act (.declare id name d position)).scope s = f.scope s)
  /-- A declaration changes the look-ups of its name that come to its scope, and no others. -/
  declared : ∀ id name d position g, id < f.scopes.size → f.declare id name d position = .ok g →
    (∀ s n, g.declaring? s n ≠ f.declaring? s n ↔ n = name ∧ f.Consults s name id) ∧
      (∀ s, f.Consults s name id → g.declaring? s name = some (id, d) ∧ g.find? s name = some d) ∧
      ∀ s n, ¬(n = name ∧ f.Consults s name id) → g.find? s n = f.find? s n
  /-- A table is taken away as it is and leaves an empty one in its scope alone. -/
  taken : ∀ id, id < f.scopes.size →
    (f.take id).1 = (f.scope id).table ∧
      (f.take id).2.scope id = { f.scope id with table := NameTable.empty } ∧
      ∀ s, s ≠ id → (f.take id).2.scope s = f.scope s

theorem Linked.depth_eq (h : f.Linked) (id : ScopeId) :
    f.depth id = {s | ∃ n, f.outward (n + 1) id = some s}.ncard := by
  have hNodup : (f.scope id).ancestors.Nodup :=
    (List.pairwise_cons.mp (h.pairwise_lineage id)).2.imp fun h => Nat.ne_of_gt h
  have hSet : {s | ∃ n, f.outward (n + 1) id = some s} =
      ((f.scope id).ancestors.toFinset : Set ScopeId) := by
    ext s
    simp only [Set.mem_ofPred_eq, h.outward_eq, lineage, List.getElem?_cons_succ,
      List.coe_toFinset, List.mem_iff_getElem?]
  rw [hSet, Set.ncard_coe_finset, List.toFinset_card_of_nodup hNodup, Forest.depth]

theorem Linked.found (h : f.Linked) : f.find? id name = some d ↔
    ∃ s, f.Consults id name s ∧ f.own? s name = some d := by
  simp only [find?_eq_map_declaring?, Option.map_eq_some_iff, Prod.exists, declaring?_eq_some_iff h]
  constructor
  · rintro ⟨s, e, hs, rfl⟩
    exact ⟨s, hs⟩
  · rintro ⟨s, hs⟩
    exact ⟨s, d, hs, rfl⟩

theorem Linked.missing (h : f.Linked) : f.find? id name = none ↔
    ∀ n s, f.outward n id = some s → f.own? s name = none := by
  rw [find?_eq_map_declaring?, Option.map_eq_none_iff, declaring?_eq_none_iff h]

/-- Whatever scopes were opened, names declared and tables taken away, in any order, names are
looked up as in a stack of tables that scopes share. -/
theorem reached_stacked (h : f.Reached) : f.Stacked where
  found _ _ _ := h.linked.found
  declaring _ _ _ _ := declaring?_eq_some_iff h.linked
  missing _ _ := ⟨h.linked.missing, declaring?_eq_none_iff h.linked⟩
  depth := h.linked.depth_eq
  added table parent := by
    refine ⟨rfl, by rw [scope_add_new], ?_, fun s => scope_add_of_ne f table parent⟩
    rw [parent?, scope_add_new]
    cases parent <;> rfl
  refused id name d position := by
    cases hOwn : f.own? id name with
    | some e =>
      have hError := declare_of_own? (d := d) hOwn position
      refine ⟨by simp [hError], fun _ s => ?_⟩
      rw [act, hError]
    | none => simp [declare_of_free hOwn]
  declared id name d position g hId hOk := by
    obtain ⟨hFree, rfl⟩ := declare_eq_ok hOk
    refine ⟨fun s n => declaring?_declared_ne_iff h.linked hId hFree, fun s hs => ?_,
      fun s n hn => ?_⟩
    · have hNew := declaring?_declared_of_consults (d := d) h.linked hId hFree hs
      exact ⟨hNew, by rw [find?_eq_map_declaring?, hNew, Option.map_some]⟩
    · rw [find?_eq_map_declaring?, declaring?_declared_of_not h.linked hId hFree hn,
        find?_eq_map_declaring?]
  taken id hId := by
    refine ⟨rfl, ?_, fun s hs => ?_⟩
    · rw [take, scope_setTable hId, if_pos rfl]
    · rw [take, scope_setTable hId, if_neg hs]

/-- A name of a root is declared again in a scope inside it.  The scopes inside that one see the
second declaration, the others still see the first. -/
theorem reached_stacked_shadowed : ∃ f g : Forest, f.Reached ∧ f.depth 2 = 2 ∧
    f.find? 2 "x" = some 1 ∧ f.declare 1 "x" 5 ⟨7, "a"⟩ = .ok g ∧
    g.declaring? 2 "x" = some (1, 5) ∧ g.find? 3 "x" = f.find? 3 "x" ∧
    (∃ e, g.declare 1 "x" 6 ⟨9, "a"⟩ = .error e) ∧ (g.take 1).2.scope 0 = g.scope 0 := by
  let f : Forest := ⟨#[⟨⟨[("x", 1)]⟩, []⟩, ⟨.empty, [0]⟩, ⟨.empty, [1, 0]⟩, ⟨.empty, [0]⟩]⟩
  let g : Forest := ⟨#[⟨⟨[("x", 1)]⟩, []⟩, ⟨⟨[("x", 5)]⟩, [0]⟩, ⟨.empty, [1, 0]⟩, ⟨.empty, [0]⟩]⟩
  have hRoot : Reached ⟨#[⟨⟨[("x", 1)]⟩, []⟩]⟩ :=
    .act (a := .add ⟨[("x", 1)]⟩ none) .empty (by simp [Action.Allowed])
  have hInner : Reached ⟨#[⟨⟨[("x", 1)]⟩, []⟩, ⟨.empty, [0]⟩, ⟨.empty, [1, 0]⟩]⟩ :=
    .act (a := .add .empty (some 1))
      (.act (a := .add .empty (some 0)) hRoot (by simp [Action.Allowed]))
      (by simp [Action.Allowed, act, add])
  have hBefore : f.Reached :=
    .act (a := .add .empty (some 0)) hInner (by simp [Action.Allowed])
  have hDeclare : f.declare 1 "x" 5 ⟨7, "a"⟩ = .ok g := by decide
  have hAfter : g.Reached :=
    .act (a := .declare 1 "x" 5 ⟨7, "a"⟩) hBefore (show 1 < 4 by decide)
  have hDeclared := (reached_stacked hBefore).declared 1 "x" 5 ⟨7, "a"⟩ g (by decide) hDeclare
  refine ⟨f, g, hBefore, rfl, by decide, hDeclare, (hDeclared.2.1 2 ⟨1, rfl, ?_⟩).1,
    hDeclared.2.2 3 "x" ?_, ((reached_stacked hAfter).refused 1 "x" 6 ⟨9, "a"⟩).1.mpr
      ⟨5, by decide⟩, ((reached_stacked hAfter).taken 1 (by decide)).2.2 0 (by decide)⟩
  · intro m hm r hr
    obtain rfl : m = 0 := by omega
    cases hr
    decide
  · rintro ⟨-, n, hn, -⟩
    rcases n with _ | _ | n <;> cases hn

end Forest

end StageScript

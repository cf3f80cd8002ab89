import Mathlib
import StageScript.Proofs.Analysis.Law

/-!
# Which expressions have no effect

The flag of a name or a call is taken from the note of what it refers to, and that note may be
written only while the definition is walked.  Still the flag of every expression is a matter of
the expression and the tables that it sees (`Tree.quiet`): all names and calls in it refer to
storage, to constants, or to functions that the host declares to be pure.

What carries this is that every storage which was reached has its flag (`Sure`).  A definition is
marked before it is walked, so while its own walk starts it is the one that may lack it.
-/

namespace StageScript

/-- To compute the value of the definition has no effect that can be seen. -/
def Definition.isQuiet : Definition → Bool
  | var _ => true
  | param _ => true
  | loopVar _ => true
  | result => true
  | hostConst _ _ => true
  | hostFunc _ _ _ pure => pure
  | _ => false

namespace Definition

theorem isQuiet_of_isAssignable {d : Definition} (h : d.isAssignable = true) :
    d.isQuiet = true := by
  cases d <;> simp_all [isAssignable, isQuiet]

/-- The callables of a script may have effects, and so may impure functions of the host. -/
theorem isQuiet_eq_false_iff {d : Definition} :
    d.isQuiet = false ↔ d.body?.isSome = true ∨
      ∃ name arity returns, d = .hostFunc name arity returns false := by
  cases d <;> simp [isQuiet, body?]

end Definition

namespace Tree

def ReadsName (t : Tree) (n : NodeId) (chain : Chain) (name : String) : Prop :=
  ∃ k, t.kind? n = some k ∧ k.read? = some name ∧ t.Sees n chain

def quietName (t : Tree) (chain : Chain) (name : String) : Bool :=
  match (chain.find? name).bind t.kind? with
  | some (.definition d) => d.isQuiet
  | _ => false

def quietAt (t : Tree) (chain : Chain) (id : NodeId) : Bool :=
  (((t.kind? id).bind NodeKind.read?).map (t.quietName chain)).getD true

/-- Nothing in the expression has an effect. -/
def quiet (t : Tree) (chain : Chain) (id : NodeId) : Bool :=
  (subtree t.partsOf id).all (t.quietAt chain)

variable {t : Tree} {chain : Chain} {id : NodeId} {k : NodeKind} {name : String}

theorem quietName_eq_true_iff :
    t.quietName chain name = true ↔ ∃ d, Resolves t chain name d ∧ d.isQuiet = true := by
  rw [quietName]
  constructor
  · intro h
    split at h
    · rename_i d hd
      exact ⟨d, Option.bind_eq_some_iff.mp hd, h⟩
    · cases h
  · rintro ⟨d, ⟨i, hi, hd⟩, hq⟩
    rw [hi, Option.bind_some, hd]
    exact hq

theorem quietName_of_find? {target : NodeId} {d : Definition}
    (hf : chain.find? name = some target) (hd : t.kind? target = some (.definition d)) :
    t.quietName chain name = d.isQuiet := by
  rw [quietName, hf, Option.bind_some, hd]

theorem quietName_of_not_found (hf : chain.find? name = none) : t.quietName chain name = false := by
  rw [quietName, hf]
  rfl

/-- An expression is without effect if what it refers to is, and its parts are. -/
theorem WellFormed.quiet_eq (h : t.WellFormed) (chain : Chain) (hk : t.kind? id = some k) :
    t.quiet chain id = (t.quietAt chain id && k.children.all (t.quiet chain)) := by
  rw [quiet, h.partsOf_falls.subtree_eq, List.all_cons, partsOf_of_kind? hk, List.all_flatMap]
  rfl

/-- Everything in an expression is an expression, and sees the same tables. -/
theorem Composed.below (h : t.Composed) (hTree : t.WellFormed) :
    ∀ {id}, t.IsExpr id → ∀ {chain}, t.Sees id chain →
      ∀ n ∈ subtree t.partsOf id, t.IsExpr n ∧ t.Sees n chain := by
  intro id
  induction id using Nat.strongRecOn with
  | ind id ih =>
    rintro ⟨k, hk, he⟩ _ ⟨place, hs, rfl⟩ n hn
    rcases hTree.partsOf_falls.mem_subtree_iff.mp hn with rfl | ⟨c, hc, hnc⟩
    · exact ⟨⟨k, hk, he⟩, hs.sees⟩
    · rw [partsOf_of_kind? hk] at hc
      have hChain : (place.part k c).chain = place.chain := by
        refine place.part_chain_of_ne_block ?_ c
        rintro stmts table rfl
        cases he
      refine ih c (hTree.child_lt hk hc) (h.part id k hk he c hc) ?_ n hnc
      exact ⟨_, .part hs hk hc, hChain⟩

end Tree

/-! ### The law -/

def Freed (t : Tree) (n : NodeId) (a : Annotations) : Prop :=
  ∀ place, Stands t place n → t.IsExpr n → (a.note n).effectFree = t.quiet place.chain n

/-- The flags of definitions are right.  Storage has its flag once it is reached, with at most
one exception. -/
structure Sure (t : Tree) (exception : Option NodeId) (a : Annotations) : Prop where
  other : ∀ n d, t.kind? n = some (.definition d) → d.isAssignable = false →
    (a.note n).effectFree = d.isQuiet
  storage : ∀ n d, t.kind? n = some (.definition d) → d.isAssignable = true →
    a.isReachable n = true → some n ≠ exception → (a.note n).effectFree = true

/-- From `a` to `b` no flag gets wrong, and every node that is visited gets the right one. -/
structure Freeing (t : Tree) (a b : Annotations) : Prop where
  kept : ∀ n, Freed t n a → Freed t n b
  visited : ∀ n, b.visits n ≠ a.visits n → Freed t n b

theorem Annotations.note_eq_of_note? {a b : Annotations} {n : NodeId} (h : b.note? n = a.note? n) :
    b.note n = a.note n := by
  rw [note, note, h]

theorem Annotations.note_visit (a : Annotations) (id n : NodeId) : (a.visit id).note n = a.note n :=
  note_eq_of_note? (a.note?_visit id n)

theorem Freed.of_note {t : Tree} {n : NodeId} {a b : Annotations} (h : Freed t n a)
    (hn : b.note n = a.note n) : Freed t n b := by
  intro place hs he
  rw [hn]
  exact h place hs he

namespace Freeing

variable {t : Tree} {a b c : Annotations}

theorem refl (a : Annotations) : Freeing t a a :=
  ⟨fun _ h => h, fun _ h => absurd rfl h⟩

theorem trans (h : Freeing t a b) (g : Freeing t b c) : Freeing t a c := by
  refine ⟨fun n hn => g.kept n (h.kept n hn), fun n hn => ?_⟩
  by_cases hb : b.visits n = a.visits n
  · rw [← hb] at hn
    exact g.visited n hn
  · exact g.kept n (h.visited n hb)

/-- Notes and visits are as before. -/
theorem of_same (hNotes : ∀ n, b.note n = a.note n) (hVisits : ∀ n, b.visits n = a.visits n) :
    Freeing t a b :=
  ⟨fun n h => h.of_note (hNotes n), fun n h => absurd (hVisits n) h⟩

/-- The node `id` was visited and has the right flag; nothing else was changed after `c`. -/
theorem of_node {id : NodeId} {d : Annotations} (h : Freeing t (a.visit id) c)
    (hNotes : ∀ n, n ≠ id → d.note? n = c.note? n) (hVisits : ∀ n, d.visits n = c.visits n)
    (hid : Freed t id d) : Freeing t a d := by
  refine ⟨fun n hn => ?_, fun n hn => ?_⟩
  · by_cases he : n = id
    · rw [he]
      exact hid
    · have hc := h.kept n (hn.of_note (a.note_visit id n))
      exact hc.of_note (Annotations.note_eq_of_note? (hNotes n he))
  · by_cases he : n = id
    · rw [he]
      exact hid
    · rw [hVisits, ← a.visits_visit_of_ne he] at hn
      exact (h.visited n hn).of_note (Annotations.note_eq_of_note? (hNotes n he))

end Freeing

namespace Sure

variable {t : Tree} {exception : Option NodeId} {a b : Annotations}

theorem weaken (h : Sure t none a) (exception : Option NodeId) : Sure t exception a :=
  ⟨h.other, fun n d hd he hr _ => h.storage n d hd he hr (by simp)⟩

/-- Storage that has just been marked may lack its flag. -/
theorem marked {n : NodeId} (h : Sure t none a) (hm : Marked n a b) : Sure t (some n) b := by
  constructor
  · intro x d hd he
    rw [Annotations.note_eq_of_note? (hm.notes x)]
    exact h.other x d hd he
  · intro x d hd he hr hne
    have hx : x ≠ n := by
      rintro rfl
      exact hne rfl
    rw [Annotations.isReachable, hm.states, if_neg hx] at hr
    rw [Annotations.note_eq_of_note? (hm.notes x)]
    exact h.storage x d hd he hr (by simp)

/-- A visit of what is no storage leaves no exception. -/
theorem visit {n : NodeId} {k : NodeKind} (h : Sure t (some n) a) (hk : t.kind? n = some k)
    (hs : k.isStorage = false) : Sure t none (a.visit n) := by
  constructor
  · intro x d hd he
    rw [a.note_visit]
    exact h.other x d hd he
  · intro x d hd he hr _
    rw [a.isReachable_visit] at hr
    rw [a.note_visit]
    refine h.storage x d hd he hr ?_
    rintro ⟨⟩
    rw [hk] at hd
    cases hd
    rw [NodeKind.isStorage, he] at hs
    cases hs

/-- What a reached definition is noted with. -/
theorem note_eq (h : Sure t none a) {n : NodeId} {d : Definition}
    (hd : t.kind? n = some (.definition d)) (hr : a.isReachable n = true) :
    (a.note n).effectFree = d.isQuiet := by
  cases he : d.isAssignable with
  | false => exact h.other n d hd he
  | true => rw [h.storage n d hd he hr (by simp), Definition.isQuiet_of_isAssignable he]

end Sure

def effectLaw (t : Tree) : Law where
  Inv := Sure t none
  Pre n := Sure t (some n)
  Post := Freed t
  Rel := Freeing t

namespace Law.Step

variable {t : Tree} {place : Place} {id : NodeId} {k : NodeKind} {a b c d : Annotations}
  {free : Bool}

/-- After the walk of a node the flags of definitions are right. -/
theorem sure (h : (effectLaw t).Step t place id k a b c d free) : Sure t none d := by
  have hw := h.written
  have hPre : Sure t (some id) a := h.pre
  -- Storage may lack its flag until its own walk is over.
  have hc : Sure t (some id) c := by
    cases hs : k.isStorage with
    | false => exact Sure.weaken (h.inv hs).2 _
    | true =>
      rw [h.idle hs]
      refine ⟨fun x e he hx => ?_, fun x e he hx hr hne => ?_⟩
      · rw [a.note_visit]
        exact hPre.other x e he hx
      · rw [a.note_visit]
        rw [a.isReachable_visit] at hr
        exact hPre.storage x e he hx hr hne
  have hSelf : ∀ e, t.kind? id = some (.definition e) →
      (d.note id).effectFree = (e.isAssignable || (c.note id).effectFree) := by
    intro e he
    have hk := h.kind
    rw [he] at hk
    cases hk
    exact hw.definition rfl
  have hOther : ∀ {n}, n ≠ id → d.note n = c.note n := fun hn =>
    Annotations.note_eq_of_note? (hw.notes _ hn)
  constructor
  · intro n e he hn
    by_cases hid : n = id
    · subst hid
      rw [hSelf e he, hn, Bool.false_or]
      exact hc.other n e he hn
    · rw [hOther hid]
      exact hc.other n e he hn
  · intro n e he hn hr _
    by_cases hid : n = id
    · subst hid
      rw [hSelf e he, hn, Bool.true_or]
    · rw [hw.isReachable] at hr
      rw [hOther hid]
      refine hc.storage n e he hn hr ?_
      rintro ⟨⟩
      exact hid rfl

/-- What a node refers to was noted rightly when its note was read. -/
theorem ownFree_eq (h : (effectLaw t).Step t place id k a b c d free) (hTree : t.WellFormed)
    (hk : k.isStorage = false) : k.ownFree place.chain b = t.quietAt place.chain id := by
  rw [NodeKind.ownFree, Tree.quietAt, h.kind, Option.bind_some]
  cases hn : k.read? with
  | none => rfl
  | some name =>
    have hUsed := NodeKind.used?_of_read? hn
    change _ = t.quietName place.chain name
    cases hf : place.chain.find? name with
    | none =>
      rw [Tree.quietName_of_not_found hf]
      simp only [hf]
      rfl
    | some target =>
      obtain ⟨e, he⟩ := h.stands.find?_definition hTree hf
      rw [Tree.quietName_of_find? hf he]
      simp only [hf]
      exact (h.inv hk).1.note_eq he (h.reached name target hUsed hf)

/-- After the walk of a node its flag is right. -/
theorem freed (h : (effectLaw t).Step t place id k a b c d free) (hTree : t.WellFormed)
    (hComposed : t.Composed) : Freed t id d := by
  rintro q hq ⟨l, hl, he⟩
  rw [h.kind] at hl
  cases hl
  obtain rfl := h.stands.unique hTree hq
  have hStorage : k.isStorage = false := by
    cases k <;> simp_all [NodeKind.isExpr, NodeKind.isStorage]
  have hBlock : ∀ stmts table, k ≠ .block stmts table := by
    rintro stmts table rfl
    cases he
  have hParts : ∀ x ∈ k.children, ∀ m, Freed t x m →
      (m.note x).effectFree = t.quiet place.chain x := by
    intro x hx m hm
    rw [← place.part_chain_of_ne_block hBlock x]
    exact hm _ (.part h.stands h.kind hx) (hComposed.part id k h.kind he x hx)
  have hFree := h.free_eq (t.quiet place.chain) hParts
  have hNotes : ∀ x ∈ k.children, (c.note x).effectFree = t.quiet place.chain x :=
    fun x hx => hParts x hx c (h.children x hx)
  rw [h.written.effect he _ hNotes hFree, hTree.quiet_eq place.chain h.kind,
    h.ownFree_eq hTree hStorage]

end Law.Step

theorem effectLaw_holds {t : Tree} (hTree : t.WellFormed) (hComposed : t.Composed) :
    (effectLaw t).Holds t where
  refl := Freeing.refl
  trans := Freeing.trans
  kept h := h.kept _
  pre n h := h.weaken (some n)
  marked h hm := ⟨h.marked hm,
    .of_same (fun n => Annotations.note_eq_of_note? (hm.notes n)) hm.visits⟩
  visit hk hs h := h.visit hk hs
  node h := ⟨h.sure, .of_node (Freeing.trans h.names h.parts) h.written.notes h.written.visits
    (h.freed hTree hComposed), h.freed hTree hComposed⟩

/-! ### The whole analysis -/

theorem sure_ofTree (t : Tree) (exception : Option NodeId) : Sure t exception (.ofTree t) := by
  constructor
  · intro n d hd he
    obtain ⟨⟨kind, span⟩, hn, hKind⟩ := Tree.kind?_eq_some_iff.mp hd
    cases hKind
    rw [Annotations.note, Annotations.note?, Annotations.get?_ofTree, hn]
    cases d <;> first | rfl | cases he
  · intro n d _ _ hr
    rw [Annotations.isReachable_ofTree] at hr
    cases hr

/-- The flag of a visited expression is right. -/
theorem analyze_freed {t : Tree} (hTree : t.WellFormed) (hComposed : t.Composed)
    {options : Options} {a : Annotations} (h : analyze t options = .ok a) {n : NodeId}
    (hn : a.isVisited n = true) : Freed t n a := by
  obtain ⟨hFollows, -⟩ :=
    (effectLaw_holds hTree hComposed).of_analyze hTree (sure_ofTree t _) h
  have hRel : Freeing t (.ofTree t) a := hFollows.rel
  refine hRel.visited n ?_
  rw [Annotations.visits_ofTree]
  exact Nat.ne_of_gt (of_decide_eq_true hn)

/-- Nothing in an expression has an effect if every name and call in it stands for something
without effect. -/
theorem Tree.Composed.quiet_eq_true_iff {t : Tree} (h : t.Composed) (hTree : t.WellFormed)
    {id : NodeId} (hid : t.IsExpr id) {chain : Chain} (hs : t.Sees id chain) :
    t.quiet chain id = true ↔ ∀ n ∈ subtree t.partsOf id, ∀ own name,
      t.ReadsName n own name → ∃ d, Resolves t own name d ∧ d.isQuiet = true := by
  rw [quiet, List.all_eq_true]
  refine forall₂_congr fun n hn => ?_
  obtain ⟨⟨k, hk, -⟩, hSees⟩ := h.below hTree hid hs n hn
  constructor
  · rintro hq own name ⟨l, hl, hName, hOwn⟩
    rw [quietAt, hl, Option.bind_some, hName] at hq
    rw [(hTree.exists_unique_sees (lt_size_of_kind? hk)).unique hOwn hSees]
    exact quietName_eq_true_iff.mp hq
  · intro hAll
    rw [quietAt, hk, Option.bind_some]
    cases hName : k.read? with
    | none => rfl
    | some name => exact quietName_eq_true_iff.mpr (hAll chain name ⟨k, hk, hName, hSees⟩)

/-- A name that stands for nothing without effect stands for nothing at all or for something
that may have effects. -/
theorem Tree.ReadsName.not_quiet_iff {t : Tree} {n : NodeId} {chain : Chain} {name : String}
    (h : t.ReadsName n chain name) (hTree : t.WellFormed) :
    (¬ ∃ d, Resolves t chain name d ∧ d.isQuiet = true) ↔
      chain.find? name = none ∨ ∃ d, Resolves t chain name d ∧ d.isQuiet = false := by
  obtain ⟨k, hk, -, place, hs, rfl⟩ := h
  constructor
  · intro hNone
    cases hf : place.chain.find? name with
    | none => exact Or.inl rfl
    | some target =>
      obtain ⟨d, hd⟩ := hs.find?_definition hTree hf
      refine Or.inr ⟨d, ⟨target, hf, hd⟩, ?_⟩
      rw [← Bool.not_eq_true]
      exact fun hq => hNone ⟨d, ⟨target, hf, hd⟩, hq⟩
  · rintro (hNone | ⟨d, hd, hq⟩) ⟨e, he, hQuiet⟩
    · exact he.not_undefined (Chain.find?_eq_none_iff.mp hNone)
    · rw [hd.unique he, hQuiet] at hq
      cases hq

/-- The analysis tells exactly which expressions have no effect: those in which every name and
call refers to storage, a constant or a pure function of the host.  One call of a callable of the
script or of an impure function, or one name that stands for nothing, makes all expressions
around it have effects, and nothing else does. -/
theorem analyze_effects_exact {tokens : List Token} {file : String} {host : Host} {tree : Tree}
    (h : parse tokens file host = .ok tree) (options : Options) :
    ∃ a, analyze tree options = .ok a ∧
      ∀ id k, tree.kind? id = some k → k.isExpr = true → a.isVisited id = true →
        ∃ note, a.note? id = some note ∧
          (note.effectFree = true ↔ ∀ n ∈ subtree tree.partsOf id, ∀ chain name,
            tree.ReadsName n chain name → ∃ d, Resolves tree chain name d ∧ d.isQuiet = true) ∧
          (note.effectFree = false ↔ ∃ n ∈ subtree tree.partsOf id, ∃ chain name,
            tree.ReadsName n chain name ∧ (chain.find? name = none ∨
              ∃ d, Resolves tree chain name d ∧ (d.body?.isSome = true ∨
                ∃ f arity returns, d = .hostFunc f arity returns false))) := by
  have hTree := parse_wellFormed h
  have hComposed := parse_composed h
  obtain ⟨a, fresh, hRun, hWalked⟩ := analyze_walked hTree options
  refine ⟨a, hRun, fun id k hk he hid => ?_⟩
  obtain ⟨place, hs⟩ := hTree.exists_place (Tree.lt_size_of_kind? hk)
  obtain ⟨e, hEntry, -⟩ := hWalked.carries.entry id k hk
  have hNote : a.note? id = some e.note := by
    rw [Annotations.note?, hEntry]
    rfl
  have hFlag : e.note.effectFree = tree.quiet place.chain id := by
    have hFreed := analyze_freed hTree hComposed hRun hid place hs ⟨k, hk, he⟩
    rw [Annotations.note, hNote] at hFreed
    exact hFreed
  have hTrue := hComposed.quiet_eq_true_iff hTree ⟨k, hk, he⟩ hs.sees
  refine ⟨e.note, hNote, by rw [hFlag, hTrue], ?_⟩
  rw [hFlag, ← Bool.not_eq_true, hTrue]
  simp only [← Definition.isQuiet_eq_false_iff]
  constructor
  · intro hNot
    by_contra hNone
    refine hNot fun n hn chain name hReads => ?_
    by_contra hQuiet
    exact hNone ⟨n, hn, chain, name, hReads, (hReads.not_quiet_iff hTree).mp hQuiet⟩
  · rintro ⟨n, hn, chain, name, hReads, hBad⟩ hAll
    exact (hReads.not_quiet_iff hTree).mpr hBad (hAll n hn chain name hReads)

theorem analyze_effects_exact_sum : ∃ tokens tree a,
    tokenize "let x = sin(y) + f([x]); function f(a) \x7b result = a; \x7d" "a" = .ok tokens ∧
    parse tokens "a" ⟨[⟨"sin", 1, .real, true⟩], [⟨"y", .real⟩]⟩ = .ok tree ∧
    analyze tree Options.standard = .ok a ∧
    tree.kind? 4 = some (.call "sin" [3]) ∧ tree.kind? 8 = some (.binary .add 4 7) ∧
    a.isVisited 4 = true ∧ a.isVisited 8 = true ∧
    (∀ n ∈ subtree tree.partsOf 4, ∀ chain name, tree.ReadsName n chain name →
      ∃ d, Resolves tree chain name d ∧ d.isQuiet = true) ∧
    ∃ n ∈ subtree tree.partsOf 8, ∃ chain name, tree.ReadsName n chain name ∧
      (chain.find? name = none ∨ ∃ d, Resolves tree chain name d ∧ (d.body?.isSome = true ∨
        ∃ f arity returns, d = .hostFunc f arity returns false)) := by
  have hRun : (do
      let tokens ← tokenize "let x = sin(y) + f([x]); function f(a) \x7b result = a; \x7d" "a"
      let tree ← parse tokens "a" ⟨[⟨"sin", 1, .real, true⟩], [⟨"y", .real⟩]⟩
      let a ← analyze tree Options.standard
      pure ((tree.kind? 4, tree.kind? 8), (a.isVisited 4, a.isVisited 8),
        (a.note? 4).map Note.effectFree, (a.note? 8).map Note.effectFree)) =
        Except.ok ((some (.call "sin" [3]), some (.binary .add 4 7)), (true, true),
          some true, some false) := by
    cbv
  obtain ⟨tokens, hTokens, hRun⟩ := exists_of_bind_eq_ok hRun
  obtain ⟨tree, hTree, hRun⟩ := exists_of_bind_eq_ok hRun
  obtain ⟨a, ha, hRun⟩ := exists_of_bind_eq_ok hRun
  obtain ⟨hKinds, hRun⟩ := Prod.mk.inj (Except.ok.inj hRun)
  obtain ⟨hSin, hSum⟩ := Prod.mk.inj hKinds
  obtain ⟨hVisited, hFlags⟩ := Prod.mk.inj hRun
  obtain ⟨hFour, hEight⟩ := Prod.mk.inj hVisited
  obtain ⟨hQuiet, hLoud⟩ := Prod.mk.inj hFlags
  obtain ⟨b, hb, hExact⟩ := analyze_effects_exact hTree Options.standard
  obtain rfl : a = b := Except.ok.inj (ha.symm.trans hb)
  obtain ⟨first, hFirst, hTrue, -⟩ := hExact 4 _ hSin rfl hFour
  obtain ⟨second, hSecond, -, hFalse⟩ := hExact 8 _ hSum rfl hEight
  rw [hFirst, Option.map_some, Option.some.injEq] at hQuiet
  rw [hSecond, Option.map_some, Option.some.injEq] at hLoud
  exact ⟨tokens, tree, a, hTokens, hTree, ha, hSin, hSum, hFour, hEight, hTrue.mp hQuiet,
    hFalse.mp hLoud⟩

end StageScript

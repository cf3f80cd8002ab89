import Mathlib
import StageScript.Proofs.Analysis.Phases

/-!
# Laws of walks

A `Law` says how the annotations after a walk are related to those before it, what holds
between walks, and what a walk ensures of the node that it was given.  A law holds of every
analysis (`Law.Holds.of_analyze`) if it allows first uses to be marked and if it holds of a node
whenever it holds of what was walked for the node (`Law.Step`).  So the recursion of the walk,
and the definitions that are walked in between, are gone through once for all laws.
-/

namespace StageScript

/-! ### Marks -/

structure Marked (d : NodeId) (a b : Annotations) : Prop where
  size : b.entries.size = a.entries.size
  notes : ∀ n, b.note? n = a.note? n
  visits : ∀ n, b.visits n = a.visits n
  states : ∀ n, b.state? n =
    if n = d then (a.state? n).map fun s => { s with unreachable := false } else a.state? n
  reached : b.isReachable d = true

theorem Marked.mono {d n : NodeId} {a b : Annotations} (h : Marked d a b)
    (hn : a.isReachable n = true) : b.isReachable n = true := by
  by_cases hnd : n = d
  · rw [hnd]
    exact h.reached
  · rw [Annotations.isReachable, h.states, if_neg hnd]
    exact hn

theorem Annotations.modify_eq_self {a : Annotations} {id : NodeId} {e : Entry} {f : Entry → Entry}
    (he : a.get? id = some e) (hf : f e = e) : a.modify id f = a := by
  obtain ⟨entries⟩ := a
  refine congrArg Annotations.mk (Array.ext_getElem? fun n => ?_)
  change (modify ⟨entries⟩ id f).get? n = get? ⟨entries⟩ n
  rw [get?_modify]
  split
  · rename_i hn
    rw [← hn, he, Option.map_some, hf]
  · rfl

/-- A definition is marked at its first use, and nothing is done at others. -/
theorem Analysis.reach_ok {d : NodeId} {a b : Annotations} {first : Bool}
    (h : reach d a = .ok (first, b)) :
    (first = false ∧ b = a ∧ a.isReachable d = true) ∨ (first = true ∧ Marked d a b) := by
  obtain ⟨⟨before, a'⟩, hLift, -⟩ := exists_of_bind_eq_ok h
  obtain ⟨s, hState, -⟩ := exists_of_bind_eq_ok hLift
  cases he : a.get? d with
  | none => simp [Annotations.state, Annotations.state?, he] at hState
  | some e =>
    cases hs : e.state with
    | none => simp [Annotations.state, Annotations.state?, he, hs] at hState
    | some s =>
      rw [reach_of_get? he hs] at h
      cases h
      cases hu : s.unreachable with
      | false =>
        refine Or.inl ⟨rfl, Annotations.modify_eq_self he ?_, ?_⟩
        · rw [← hu, ← hs]
        · simp [Annotations.isReachable, Annotations.state?, he, hs, hu]
      | true =>
        have hSelf := Annotations.get?_modify_self he
          fun e => { e with state := some { s with unreachable := false } }
        refine Or.inr ⟨rfl, Array.size_modify, Annotations.note?_modify he rfl,
          Annotations.visits_modify he rfl, fun n => ?_, ?_⟩
        · by_cases hn : n = d
          · subst hn
            simp [Annotations.state?, hSelf, he, hs]
          · simp [Annotations.state?, a.get?_modify_of_ne (Ne.symm hn), hn]
        · simp [Annotations.isReachable, Annotations.state?, hSelf]

theorem Written.isReachable {t : Tree} {chain : Chain} {id : NodeId} {k : NodeKind} {free : Bool}
    {b c d : Annotations} (h : Written t chain id k free b c d) (n : NodeId) :
    d.isReachable n = c.isReachable n := by
  rw [Annotations.isReachable, Annotations.isReachable, h.states, Option.map_map]
  rfl

theorem Annotations.isReachable_visit (a : Annotations) (id n : NodeId) :
    (a.visit id).isReachable n = a.isReachable n := by
  rw [isReachable, isReachable, state?_visit]

/-! ### Laws -/

/-- What is asked of walks. -/
structure Law where
  /-- What holds between walks. -/
  Inv : Annotations → Prop
  /-- What holds when the walk of a node starts. -/
  Pre : NodeId → Annotations → Prop
  /-- What holds of a node once it was walked. -/
  Post : NodeId → Annotations → Prop
  /-- How the annotations before a walk and after it are related. -/
  Rel : Annotations → Annotations → Prop

namespace Law

variable {L : Law} {t : Tree} {options : Options} {place : Place} {id : NodeId} {k : NodeKind}
  {a b c d : Annotations} {free : Bool}

structure Follows (L : Law) (a b : Annotations) : Prop where
  inv : L.Inv b
  rel : L.Rel a b
  mono : ∀ n, a.isReachable n = true → b.isReachable n = true

/-- A node of kind `k` was walked from `a` to `d` by the law, except for what it did itself: it
was visited, and in the end wrote down what it had found. -/
structure Step (L : Law) (t : Tree) (place : Place) (id : NodeId) (k : NodeKind)
    (a b c d : Annotations) (free : Bool) : Prop where
  stands : Stands t place id
  kind : t.kind? id = some k
  pre : L.Pre id a
  names : L.Rel (a.visit id) b
  parts : L.Rel b c
  inv : k.isStorage = false → L.Inv b ∧ L.Inv c
  /-- Storage has no parts and no names. -/
  idle : k.isStorage = true → c = a.visit id
  reached : ∀ name target, k.used? = some name → place.chain.find? name = some target →
    b.isReachable target = true
  children : ∀ x ∈ k.children, L.Post x c
  free_eq : ∀ F : NodeId → Bool,
    (∀ x ∈ k.children, ∀ m, L.Post x m → (m.note x).effectFree = F x) → free = k.children.all F
  written : Written t place.chain id k free b c d

structure Holds (L : Law) (t : Tree) : Prop where
  refl : ∀ a, L.Rel a a
  trans : ∀ {a b c}, L.Rel a b → L.Rel b c → L.Rel a c
  kept : ∀ {a b n}, L.Rel a b → L.Post n a → L.Post n b
  pre : ∀ {a} n, L.Inv a → L.Pre n a
  marked : ∀ {a b n}, L.Inv a → Marked n a b → L.Pre n b ∧ L.Rel a b
  visit : ∀ {a n k}, t.kind? n = some k → k.isStorage = false → L.Pre n a → L.Inv (a.visit n)
  node : ∀ {place id k a b c d free}, L.Step t place id k a b c d free →
    L.Inv d ∧ L.Rel a d ∧ L.Post id d

def Obeyed (L : Law) (t : Tree) (walk : Analysis.Walker) : Prop :=
  ∀ {place : Place} {id : NodeId} {a b : Annotations} {u : Unit}, Stands t place id → L.Pre id a →
    walk place.chain id a = .ok (u, b) → L.Follows a b ∧ L.Post id b

namespace Holds

theorem follows_refl (h : L.Holds t) (ha : L.Inv a) : L.Follows a a :=
  ⟨ha, h.refl a, fun _ hn => hn⟩

theorem follows_trans (h : L.Holds t) (hab : L.Follows a b) (hbc : L.Follows b c) :
    L.Follows a c :=
  ⟨hbc.inv, h.trans hab.rel hbc.rel, fun n hn => hbc.mono n (hab.mono n hn)⟩

theorem of_walkAll (h : L.Holds t) {walk : Analysis.Walker} {chain : Chain} {ids : List NodeId}
    (hEach : ∀ x ∈ ids, ∀ {a b u}, L.Inv a → walk chain x a = .ok (u, b) →
      L.Follows a b ∧ L.Post x b)
    (ha : L.Inv a) (hRun : Analysis.walkAll walk chain ids a = .ok (free, c)) :
    L.Follows a c ∧ (∀ x ∈ ids, L.Post x c) ∧ ∀ F : NodeId → Bool,
      (∀ x ∈ ids, ∀ m, L.Post x m → (m.note x).effectFree = F x) → free = ids.all F := by
  induction ids generalizing a free with
  | nil =>
    cases hRun
    exact ⟨h.follows_refl ha, List.forall_mem_nil _, fun _ _ => rfl⟩
  | cons x ids ih =>
    obtain ⟨⟨u, b⟩, hFirst, hRest⟩ := exists_of_bind_eq_ok hRun
    obtain ⟨⟨rest, c'⟩, hIds, hEnd⟩ := exists_of_bind_eq_ok hRest
    cases hEnd
    obtain ⟨hab, hx⟩ := hEach x List.mem_cons_self ha hFirst
    obtain ⟨hbc, hPost, hFlags⟩ := ih (fun y hy => hEach y (List.mem_cons_of_mem x hy)) hab.inv hIds
    refine ⟨h.follows_trans hab hbc, fun y hy => ?_, fun F hF => ?_⟩
    · rcases List.mem_cons.mp hy with rfl | hy
      · exact h.kept hbc.rel hx
      · exact hPost y hy
    · rw [List.all_cons, ← hF x List.mem_cons_self b hx,
        ← hFlags F fun y hy => hF y (List.mem_cons_of_mem x hy)]

theorem of_resolve (h : L.Holds t) {walk : Analysis.Walker} (hWalk : L.Obeyed t walk)
    {chain : Chain} {name : String} {r : Option NodeId}
    (hChain : ∀ declared n, chain.declaring? name = some (declared, n) →
      ∃ q, Stands t q n ∧ q.chain = declared)
    (ha : L.Inv a) (hRun : Analysis.resolve walk chain name a = .ok (r, b)) :
    L.Follows a b ∧ ∀ n, chain.find? name = some n → b.isReachable n = true := by
  rw [Analysis.resolve] at hRun
  rw [Chain.find?_eq_declaring?]
  cases hd : chain.declaring? name with
  | none =>
    rw [hd] at hRun
    cases hRun
    exact ⟨h.follows_refl ha, fun n hn => by cases hn⟩
  | some found =>
    obtain ⟨declared, n⟩ := found
    obtain ⟨q, hq, rfl⟩ := hChain declared n hd
    rw [hd] at hRun
    obtain ⟨⟨first, a'⟩, hReach, hRest⟩ := exists_of_bind_eq_ok hRun
    rcases Analysis.reach_ok hReach with ⟨rfl, rfl, hReached⟩ | ⟨rfl, hMarked⟩
    · cases hRest
      refine ⟨h.follows_refl ha, ?_⟩
      rintro _ ⟨⟩
      exact hReached
    · obtain ⟨⟨u, b'⟩, hBody, hEnd⟩ := exists_of_bind_eq_ok hRest
      cases hEnd
      obtain ⟨hPre, hRel⟩ := h.marked ha hMarked
      obtain ⟨hFollows, -⟩ := hWalk hq hPre hBody
      refine ⟨⟨hFollows.inv, h.trans hRel hFollows.rel,
        fun m hm => hFollows.mono m (hMarked.mono hm)⟩, ?_⟩
      rintro _ ⟨⟩
      exact hFollows.mono n hMarked.reached

theorem of_resolveAll (h : L.Holds t) {walk : Analysis.Walker} (hWalk : L.Obeyed t walk)
    {chain : Chain} {names : List String} {u : Unit}
    (hChain : ∀ name declared n, chain.declaring? name = some (declared, n) →
      ∃ q, Stands t q n ∧ q.chain = declared)
    (ha : L.Inv a) (hRun : Analysis.resolveAll walk chain names a = .ok (u, b)) :
    L.Follows a b ∧ ∀ name ∈ names, ∀ n, chain.find? name = some n → b.isReachable n = true := by
  induction names generalizing a with
  | nil =>
    cases hRun
    exact ⟨h.follows_refl ha, List.forall_mem_nil _⟩
  | cons name names ih =>
    obtain ⟨⟨_, m⟩, hFirst, hRest⟩ := exists_of_bind_eq_ok hRun
    obtain ⟨⟨r, m'⟩, hResolve, hEnd⟩ := exists_of_bind_eq_ok hFirst
    cases hEnd
    obtain ⟨ham, hFound⟩ := h.of_resolve hWalk (hChain name) ha hResolve
    obtain ⟨hmb, hOthers⟩ := ih ham.inv hRest
    refine ⟨h.follows_trans ham hmb, fun other ho n hn => ?_⟩
    rcases List.mem_cons.mp ho with rfl | ho
    · exact hmb.mono n (hFound n hn)
    · exact hOthers other ho n hn

/-- In the tables that the parts of a node see, what a name stands for stands in the block that
declares it. -/
theorem declaring?_scope (hs : Stands t place id) (hk : t.kind? id = some k) (name : String)
    (declared : Chain) (n : NodeId)
    (hd : Chain.declaring? (k.scope place.chain) name = some (declared, n)) :
    ∃ q, Stands t q n ∧ q.chain = declared := by
  cases k with
  | block stmts table => exact hs.declaring?_inside hk hd
  | _ => exact hs.declaring? hd

/-- Storage is walked without walking anything else. -/
theorem idle_of_phases {walk : Analysis.Walker} {chain : Chain} (hk : k.isStorage = true)
    (h : Analysis.Phases t options walk chain id k a b c d free) :
    k.children = [] ∧ k.used? = none ∧ b = a.visit id ∧ c = a.visit id ∧ free = true := by
  cases k with
  | definition e =>
    have hChildren : (NodeKind.definition e).children = [] := by
      cases e <;> simp_all [NodeKind.children, NodeKind.isStorage, Definition.isAssignable,
        Definition.body?]
    have hNames := h.names
    have hParts := h.parts
    cases hNames
    rw [hChildren] at hParts
    cases hParts
    exact ⟨hChildren, rfl, rfl, rfl, rfl⟩
  | _ => cases hk

theorem of_nodeWith (h : L.Holds t) (hTree : t.WellFormed) {walk : Analysis.Walker}
    (hWalk : L.Obeyed t walk) : L.Obeyed t (Analysis.nodeWith t options walk) := by
  intro place id a d u hs hPre hRun
  obtain ⟨k, hk⟩ := Tree.exists_kind?_of_lt (hs.lt_size hTree)
  obtain ⟨b, free, c, hPhases⟩ := Analysis.exists_phases hk hRun
  suffices hStep : L.Step t place id k a b c d free ∧ ∀ n, a.isReachable n = true →
      c.isReachable n = true by
    obtain ⟨hInv, hRel, hPost⟩ := h.node hStep.1
    refine ⟨⟨hInv, hRel, fun n hn => ?_⟩, hPost⟩
    rw [hPhases.written.isReachable]
    exact hStep.2 n hn
  cases hStorage : k.isStorage with
  | true =>
    obtain ⟨hChildren, hUsed, rfl, rfl, rfl⟩ := idle_of_phases hStorage hPhases
    have hWritten := hPhases.written
    refine ⟨⟨hs, hk, hPre, h.refl _, h.refl _, ?_, fun _ => rfl, ?_, ?_, ?_, hWritten⟩, ?_⟩
    · intro hNot
      rw [hStorage] at hNot
      cases hNot
    · intro name target hName
      rw [hUsed] at hName
      cases hName
    · rw [hChildren]
      exact List.forall_mem_nil _
    · intro F _
      rw [hChildren]
      rfl
    · intro n hn
      rw [Annotations.isReachable_visit]
      exact hn
  | false =>
    have hVisit := h.visit hk hStorage hPre
    obtain ⟨hNames, hReached⟩ :=
      h.of_resolveAll hWalk (declaring?_scope hs hk) hVisit hPhases.names
    have hEach : ∀ x ∈ k.children, ∀ {a b u}, L.Inv a →
        walk (k.scope place.chain) x a = .ok (u, b) → L.Follows a b ∧ L.Post x b := by
      intro x hx a b u ha hWalked
      rw [← NodeKind.scope_eq place k x] at hWalked
      exact hWalk (.part hs hk hx) (h.pre x ha) hWalked
    obtain ⟨hParts, hPost, hFree⟩ := h.of_walkAll hEach hNames.inv hPhases.parts
    refine ⟨⟨hs, hk, hPre, hNames.rel, hParts.rel, fun _ => ⟨hNames.inv, hParts.inv⟩, ?_, ?_, hPost,
      hFree, hPhases.written⟩, ?_⟩
    · intro hNot
      rw [hStorage] at hNot
      cases hNot
    · intro name target hUsed hf
      obtain ⟨hLookups, hScope⟩ := NodeKind.lookups_of_used? hUsed options place.chain
      rw [hScope] at hReached
      exact hReached name (by rw [hLookups]; exact List.mem_cons_self) target hf
    · intro n hn
      refine hParts.mono n (hNames.mono n ?_)
      rw [Annotations.isReachable_visit]
      exact hn

/-- Every walk obeys the law. -/
theorem of_walkAt (h : L.Holds t) (hTree : t.WellFormed) (depth : Nat) :
    L.Obeyed t (Analysis.walkAt t options depth) := by
  induction depth with
  | zero =>
    intro place id a b u _ _ hRun
    cases hRun
  | succ depth ih => exact h.of_nodeWith hTree ih

/-- Every analysis obeys the law. -/
theorem of_analyze (h : L.Holds t) (hTree : t.WellFormed) (hPre : L.Pre t.root (.ofTree t))
    (hRun : analyze t options = .ok a) : L.Follows (.ofTree t) a ∧ L.Post t.root a := by
  obtain ⟨stmts, table, hk⟩ := hTree.root_block
  obtain ⟨⟨kind, span⟩, hn, hKind⟩ := Tree.kind?_eq_some_iff.mp hk
  cases hKind
  obtain ⟨⟨u, b⟩, hBlock, hEnd⟩ := exists_of_bind_eq_ok hRun
  cases hEnd
  have hNode : Analysis.nodeWith t options (Analysis.walkAt t options (Analysis.maxDepth t))
      Place.outermost.chain t.root (.ofTree t) = .ok (u, a) := by
    rw [Analysis.nodeWith, Analysis.lift_bind (Tree.node_of_get? hn)]
    exact hBlock
  exact h.of_nodeWith hTree (h.of_walkAt hTree _) .root hPre hNode

end Holds

end Law

end StageScript

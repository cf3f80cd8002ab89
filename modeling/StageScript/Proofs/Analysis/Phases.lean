import Mathlib
import StageScript.Proofs.Analysis.Valued
import StageScript.Proofs.Parse.Compose

/-!
# The phases of a walk

The walk of a node counts a visit, looks up the names that the node refers to
(`NodeKind.lookups`), walks its parts, and writes down what it has found.
`Analysis.exists_phases` takes a walk that ends well apart into these phases, once for all
kinds of nodes, and `Written` says what the last of them does to the annotations.
-/

namespace StageScript

namespace NodeKind

/-- The names that are looked up before the parts of a node are walked.  The root block, which
sees no table, starts the entry routines. -/
def lookups (options : Options) (chain : Chain) : NodeKind → List String
  | block _ _ => if chain.isEmpty then options.entryRoutines else []
  | k => k.used?.toList

def scope (chain : Chain) : NodeKind → Chain
  | block _ table => table :: chain
  | _ => chain

def read? : NodeKind → Option String
  | ref name => some name
  | call name _ => some name
  | _ => none

def assigned? : NodeKind → Option String
  | target name _ => some name
  | varInit name _ => some name
  | _ => none

def isStorage : NodeKind → Bool
  | definition d => d.isAssignable
  | _ => false

def ownFree (chain : Chain) (a : Annotations) (k : NodeKind) : Bool :=
  match k.read? with
  | none => true
  | some name => ((chain.find? name).map fun target => (a.note target).effectFree).getD false

theorem isStorage_of_isDefinition {k : NodeKind} (h : k.isDefinition = false) :
    k.isStorage = false := by
  cases k with
  | definition d => cases h
  | _ => rfl

theorem scope_eq (place : Place) (k : NodeKind) (c : NodeId) :
    (place.part k c).chain = k.scope place.chain := by
  cases k with
  | block stmts table => rfl
  | _ => exact place.part_chain_of_ne_block (by simp) c

theorem lookups_of_used? {k : NodeKind} {name : String} (h : k.used? = some name)
    (options : Options) (chain : Chain) :
    k.lookups options chain = [name] ∧ k.scope chain = chain := by
  cases k <;> simp_all [used?, lookups, scope]

theorem used?_of_read? {k : NodeKind} {name : String} (h : k.read? = some name) :
    k.used? = some name := by
  cases k <;> simp_all [read?, used?]

end NodeKind

namespace Tree

def isVariable (t : Tree) (id : NodeId) : Bool :=
  match t.kind? id with
  | some (.definition d) => d.isVariable
  | _ => false

/-- How often the name, looked up in the tables of `chain`, is the variable `id`. -/
def uses (t : Tree) (chain : Chain) (name : Option String) (id : NodeId) : Nat :=
  if name.bind chain.find? = some id ∧ t.isVariable id = true then 1 else 0

/-- A counter after so many more uses.  It stays as it is where there are none. -/
def raised (count uses : Nat) : Nat := if uses = 0 then count else narrow (count + uses)

def counted (t : Tree) (chain : Chain) (k : NodeKind) (id : NodeId) (s : DefState) : DefState :=
  { s with
    reads := raised s.reads (t.uses chain k.read? id)
    assigns := raised s.assigns (t.uses chain k.assigned? id) }

theorem uses_none (t : Tree) (chain : Chain) (id : NodeId) : t.uses chain none id = 0 := rfl

theorem uses_of_find? {t : Tree} {chain : Chain} {name : String} {target : NodeId}
    (h : chain.find? name = some target) (id : NodeId) :
    t.uses chain (some name) id = if id = target ∧ t.isVariable target = true then 1 else 0 := by
  by_cases hid : id = target
  · subst hid
    simp [uses, h]
  · simp [uses, h, hid, Ne.symm hid]

theorem uses_of_not_found {t : Tree} {chain : Chain} {name : String}
    (h : chain.find? name = none) (id : NodeId) : t.uses chain (some name) id = 0 := by
  simp [uses, h]

/-- A node that uses no variable counts nothing. -/
theorem counted_eq_self {t : Tree} {chain : Chain} {k : NodeKind} {id : NodeId}
    (hRead : t.uses chain k.read? id = 0) (hAssign : t.uses chain k.assigned? id = 0) :
    t.counted chain k id = fun s => s := by
  funext s
  rw [counted, hRead, hAssign]
  rfl

theorem get?_of_node {t : Tree} {id : NodeId} {n : Node} (h : t.node id = .ok n) :
    t.get? id = some n := by
  rw [node] at h
  split at h
  · cases h
    assumption
  · cases h

theorem kind?_of_definition {t : Tree} {id : NodeId} {d : Definition}
    (h : t.definition id = .ok d) : t.kind? id = some (.definition d) := by
  obtain ⟨⟨kind, span⟩, hNode, hKind⟩ := exists_of_bind_eq_ok h
  cases kind with
  | definition e =>
    cases hKind
    exact kind?_eq_some_iff.mpr ⟨_, get?_of_node hNode, rfl⟩
  | _ => cases hKind

theorem kind?_of_block {t : Tree} {id : NodeId} {stmts : List NodeId} {table : NameTable}
    (h : t.block id = .ok (stmts, table)) : t.kind? id = some (.block stmts table) := by
  obtain ⟨⟨kind, span⟩, hNode, hKind⟩ := exists_of_bind_eq_ok h
  cases kind with
  | block =>
    cases hKind
    exact kind?_eq_some_iff.mpr ⟨_, get?_of_node hNode, rfl⟩
  | _ => cases hKind

theorem isVariable_of_kind? {t : Tree} {id : NodeId} {d : Definition}
    (h : t.kind? id = some (.definition d)) : t.isVariable id = d.isVariable := by
  rw [isVariable, h]

end Tree

/-! ### Single changes -/

/-- Only the note of `id` changes, as `f` says. -/
structure Rewritten (id : NodeId) (f : Note → Note) (c d : Annotations) : Prop where
  size : d.entries.size = c.entries.size
  self : d.note id = f (c.note id)
  notes : ∀ n, n ≠ id → d.note? n = c.note? n
  visits : ∀ n, d.visits n = c.visits n
  states : ∀ n, d.state? n = c.state? n

/-- Only the state of the variable `id` changes, as `count` says. -/
structure Counted (t : Tree) (id : NodeId) (count : DefState → DefState) (c d : Annotations) :
    Prop where
  size : d.entries.size = c.entries.size
  notes : ∀ n, d.note? n = c.note? n
  visits : ∀ n, d.visits n = c.visits n
  states : ∀ n, d.state? n =
    if n = id ∧ t.isVariable id = true then (c.state? n).map count else c.state? n

namespace Analysis

variable {t : Tree} {id : NodeId} {c d : Annotations} {u : Unit}

theorem update_ok {f : Annotations → Except Diagnostic Annotations}
    (h : update f c = .ok (u, d)) : f c = .ok d := by
  rw [update] at h
  cases hf : f c with
  | error e =>
    rw [hf] at h
    cases h
  | ok e =>
    rw [hf] at h
    cases h
    rfl

theorem updateNote_ok {f : Note → Note} (h : update (fun a => a.updateNote id f) c = .ok (u, d)) :
    Rewritten id f c d := by
  have hStep := update_ok h
  rw [Annotations.updateNote] at hStep
  cases he : c.get? id with
  | none =>
    rw [he] at hStep
    cases hStep
  | some e =>
    rw [he] at hStep
    cases hStep
    have hSelf := Annotations.get?_modify_self he fun e => { e with note := f e.note }
    have hOther : ∀ {n}, n ≠ id →
        (c.modify id fun e => { e with note := f e.note }).get? n = c.get? n :=
      fun hn => c.get?_modify_of_ne (Ne.symm hn) _
    refine ⟨Array.size_modify, ?_, fun n hn => ?_, Annotations.visits_modify he rfl, fun n => ?_⟩
    · simp [Annotations.note, Annotations.note?, hSelf, he]
    · rw [Annotations.note?, hOther hn]
      rfl
    · by_cases hn : n = id
      · subst hn
        simp [Annotations.state?, hSelf, he]
      · simp [Annotations.state?, hOther hn]

theorem annotate_ok {note : Note} (h : annotate id note c = .ok (u, d)) :
    Rewritten id (fun _ => note) c d :=
  updateNote_ok h

theorem setEffectFree_ok {free : Bool} (h : setEffectFree id free c = .ok (u, d)) :
    Rewritten id (fun note => { note with effectFree := free }) c d :=
  updateNote_ok h

theorem countUse_ok {count : DefState → DefState} (h : countUse t id count c = .ok (u, d)) :
    Counted t id count c d := by
  obtain ⟨⟨e, c'⟩, hLift, hRest⟩ := exists_of_bind_eq_ok h
  obtain ⟨e', hDef, hEnd⟩ := exists_of_bind_eq_ok hLift
  cases hEnd
  have hVar : t.isVariable id = e.isVariable :=
    Tree.isVariable_of_kind? (Tree.kind?_of_definition hDef)
  by_cases hv : e.isVariable = true
  · simp only [hv, if_true] at hRest
    obtain ⟨s, hState, hSet⟩ := exists_of_bind_eq_ok (update_ok hRest)
    cases hSet
    cases he : c.get? id with
    | none => simp [Annotations.state, Annotations.state?, he] at hState
    | some entry =>
      cases hs : entry.state with
      | none => simp [Annotations.state, Annotations.state?, he, hs] at hState
      | some s' =>
        rw [state_of_get? he hs] at hState
        cases hState
        refine ⟨Array.size_modify, Annotations.note?_modify he rfl,
          Annotations.visits_modify he rfl, fun n => ?_⟩
        by_cases hn : n = id
        · subst hn
          simp [Annotations.state?, Annotations.get?_modify_self he, he, hs, hVar, hv]
        · simp [Annotations.state?, c.get?_modify_of_ne (Ne.symm hn), hn]
  · simp only [hv, Bool.false_eq_true, if_false] at hRest
    cases hRest
    exact ⟨rfl, fun _ => rfl, fun _ => rfl, fun n => by simp [hVar, hv]⟩

end Analysis

/-! ### What is written down -/

/-- What a node of kind `k` that sees `chain` writes down after its parts were walked.  `b` has
the annotations from before that, and `free` says whether each part was without effect. -/
structure Written (t : Tree) (chain : Chain) (id : NodeId) (k : NodeKind) (free : Bool)
    (b c d : Annotations) : Prop where
  size : d.entries.size = c.entries.size
  notes : ∀ n, n ≠ id → d.note? n = c.note? n
  visits : ∀ n, d.visits n = c.visits n
  states : ∀ n, d.state? n = (c.state? n).map (t.counted chain k n)
  effect : k.isExpr = true → ∀ F : NodeId → Bool, (∀ x ∈ k.children, (c.note x).effectFree = F x) →
    free = k.children.all F → (d.note id).effectFree = (k.ownFree chain b && k.children.all F)
  definition : k.isDefinition = true →
    (d.note id).effectFree = (k.isStorage || (c.note id).effectFree)

namespace Written

variable {t : Tree} {chain : Chain} {id : NodeId} {k : NodeKind} {free : Bool}
  {b c d e : Annotations}

theorem counted_of_plain (hRead : k.read? = none) (hAssign : k.assigned? = none) (n : NodeId) :
    t.counted chain k n = fun s => s := by
  apply Tree.counted_eq_self
  · rw [hRead, Tree.uses_none]
  · rw [hAssign, Tree.uses_none]

/-- Nothing is written down. -/
theorem nothing (hRead : k.read? = none) (hAssign : k.assigned? = none) (hk : k.isExpr = false)
    (hd : k.isStorage = false) : Written t chain id k free b c c := by
  refine ⟨rfl, fun _ _ => rfl, fun _ => rfl, fun n => ?_, fun he => ?_, fun _ => ?_⟩
  · rw [counted_of_plain hRead hAssign, Option.map_id']
  · rw [hk] at he
    cases he
  · rw [hd, Bool.false_or]

/-- The note of an expression that is no name and no call. -/
theorem of_expr {f : Note → Note} (h : Rewritten id f c d) (hRead : k.read? = none)
    (hAssign : k.assigned? = none) (hd : k.isDefinition = false)
    (hf : ∀ F : NodeId → Bool, (∀ x ∈ k.children, (c.note x).effectFree = F x) →
      free = k.children.all F → (f (c.note id)).effectFree = k.children.all F) :
    Written t chain id k free b c d := by
  refine ⟨h.size, h.notes, h.visits, fun n => ?_, fun _ F hF hFree => ?_, fun he => ?_⟩
  · rw [counted_of_plain hRead hAssign, Option.map_id', h.states]
  · rw [h.self, hf F hF hFree, NodeKind.ownFree, hRead, Bool.true_and]
  · rw [hd] at he
    cases he

/-- A note that does not matter is written before the rest. -/
theorem after_note {f : Note → Note} (h : Written t chain id k free b d e)
    (hNote : Rewritten id f c d) (hk : k.isExpr = false) (hd : k.isDefinition = false) :
    Written t chain id k free b c e := by
  refine ⟨h.size.trans hNote.size, fun n hn => (h.notes n hn).trans (hNote.notes n hn),
    fun n => (h.visits n).trans (hNote.visits n), fun n => ?_, fun he => ?_,
    fun he => ?_⟩
  · rw [h.states, hNote.states]
  · rw [hk] at he
    cases he
  · rw [hd] at he
    cases he

/-- The note of a statement, which has no value. -/
theorem of_stmt {f : Note → Note} (h : Rewritten id f c d) (hRead : k.read? = none)
    (hAssign : k.assigned? = none) (hk : k.isExpr = false) (hd : k.isDefinition = false) :
    Written t chain id k free b c d :=
  (nothing hRead hAssign hk (NodeKind.isStorage_of_isDefinition hd)).after_note h hk hd

/-- Storage has no effect. -/
theorem of_storage {e : Definition} (he : e.isAssignable = true)
    (h : Rewritten id (fun note => { note with effectFree := true }) c d) :
    Written t chain id (.definition e) free b c d := by
  refine ⟨h.size, h.notes, h.visits, fun n => ?_, (fun hk => by cases hk), fun _ => ?_⟩
  · rw [counted_of_plain rfl rfl, Option.map_id', h.states]
  · rw [h.self, NodeKind.isStorage, he, Bool.true_or]

/-- The name of a node is looked up and counted, if it is a variable. -/
theorem states_of_counted {count : DefState → DefState} {target : NodeId}
    (h : Counted t target count c d)
    (hCount : ∀ n s, t.counted chain k n s =
      if n = target ∧ t.isVariable target = true then count s else s) (n : NodeId) :
    d.state? n = (c.state? n).map (t.counted chain k n) := by
  rw [h.states]
  split
  · rename_i hn
    cases c.state? n with
    | none => rfl
    | some s => rw [Option.map_some, Option.map_some, hCount, if_pos hn]
  · rename_i hn
    cases c.state? n with
    | none => rfl
    | some s => rw [Option.map_some, hCount, if_neg hn]

theorem counted_read {name : String} (hRead : k.read? = some name) (hAssign : k.assigned? = none)
    {target : NodeId} (hf : chain.find? name = some target) (n : NodeId) (s : DefState) :
    t.counted chain k n s = if n = target ∧ t.isVariable target = true then
      { s with reads := narrow (s.reads + 1) } else s := by
  rw [Tree.counted, hRead, hAssign, Tree.uses_none, Tree.uses_of_find? hf]
  split <;> rfl

theorem counted_assign {name : String} (hRead : k.read? = none) (hAssign : k.assigned? = some name)
    {target : NodeId} (hf : chain.find? name = some target) (n : NodeId) (s : DefState) :
    t.counted chain k n s = if n = target ∧ t.isVariable target = true then
      { s with assigns := narrow (s.assigns + 1) } else s := by
  rw [Tree.counted, hRead, hAssign, Tree.uses_none, Tree.uses_of_find? hf]
  split <;> rfl

end Written

namespace Analysis

variable {t : Tree} {options : Options} {walk : Walker} {chain : Chain} {id : NodeId}
  {k : NodeKind} {a b c d : Annotations} {u : Unit}

/-- An assignment is counted. -/
theorem countAssign_ok {name : String} (hRead : k.read? = none) (hAssign : k.assigned? = some name)
    (hk : k.isExpr = false) (hd : k.isDefinition = false) {free : Bool}
    (h : countAssign t (chain.find? name) c = .ok (u, d)) : Written t chain id k free b c d := by
  have hExpr : k.isExpr ≠ true := by simp [hk]
  have hDef : k.isDefinition ≠ true := by simp [hd]
  cases hf : chain.find? name with
  | none =>
    rw [hf] at h
    cases h
    refine ⟨rfl, fun _ _ => rfl, fun _ => rfl, fun n => ?_, fun he => absurd he hExpr,
      fun he => absurd he hDef⟩
    rw [Tree.counted_eq_self, Option.map_id']
    · rw [hRead, Tree.uses_none]
    · rw [hAssign, Tree.uses_of_not_found hf]
  | some target =>
    rw [hf] at h
    have hCount := countUse_ok h
    exact ⟨hCount.size, fun n _ => hCount.notes n, hCount.visits,
      Written.states_of_counted hCount (Written.counted_assign hRead hAssign hf),
      fun he => absurd he hExpr, fun he => absurd he hDef⟩

theorem walkAll_cons_ok {x : NodeId} {xs : List NodeId} {rest : Bool}
    (h : walk chain x a = .ok (u, b)) (hRest : walkAll walk chain xs b = .ok (rest, c)) :
    walkAll walk chain (x :: xs) a = .ok ((b.note x).effectFree && rest, c) := by
  change (walk chain x a >>= fun p => (do
    let first ← note x
    let rest ← walkAll walk chain xs
    return first.effectFree && rest : Analysis Bool) p.2) = _
  rw [h]
  change (walkAll walk chain xs b >>= fun p => _) = _
  rw [hRest]
  rfl

theorem walkAll_one {x : NodeId} (h : walk chain x a = .ok (u, b)) :
    walkAll walk chain [x] a = .ok ((b.note x).effectFree && true, b) :=
  walkAll_cons_ok h rfl

def resolveAll (walk : Walker) (chain : Chain) (names : List String) : Analysis Unit :=
  names.forM fun name => do
    let _ ← resolve walk chain name

structure Phases (t : Tree) (options : Options) (walk : Walker) (chain : Chain) (id : NodeId)
    (k : NodeKind) (a b c d : Annotations) (free : Bool) : Prop where
  names : resolveAll walk (k.scope chain) (k.lookups options chain) (a.visit id) = .ok ((), b)
  parts : walkAll walk (k.scope chain) k.children b = .ok (free, c)
  written : Written t chain id k free b c d

theorem visit_bind {α : Type} (next : Unit → Analysis α) :
    (visit id >>= next) a = next () (a.visit id) := rfl

theorem resolve_one {name : String} {r : Option NodeId}
    (h : resolve walk chain name a = .ok (r, b)) :
    resolveAll walk chain [name] a = .ok ((), b) := by
  change ((resolve walk chain name a >>= fun p => _) >>= fun p => _) = _
  rw [h]
  rfl

/-- A node without names is done with its parts first. -/
theorem phases_unnamed (free : Bool) (hNames : k.lookups options chain = [])
    (hParts : walkAll walk (k.scope chain) k.children (a.visit id) = .ok (free, c))
    (h : Written t chain id k free (a.visit id) c d) :
    ∃ b free c, Phases t options walk chain id k a b c d free :=
  ⟨a.visit id, free, c, ⟨by rw [hNames]; rfl, hParts, h⟩⟩

/-- A node that has its name looked up. -/
theorem phases_named {name : String} (hUsed : k.used? = some name)
    {next : Option NodeId → Analysis Unit}
    (h : (resolve walk chain name >>= next) (a.visit id) = .ok (u, d))
    (hNext : ∀ b, next (chain.find? name) b = .ok (u, d) →
      ∃ free c, walkAll walk chain k.children b = .ok (free, c) ∧ Written t chain id k free b c d) :
    ∃ b free c, Phases t options walk chain id k a b c d free := by
  obtain ⟨hNames, hScope⟩ := NodeKind.lookups_of_used? hUsed options chain
  obtain ⟨⟨r, b⟩, hResolve, hRest⟩ := exists_of_bind_eq_ok h
  obtain rfl := resolve_eq_find? hResolve
  obtain ⟨free, c, hParts, hWritten⟩ := hNext b hRest
  refine ⟨b, free, c, ⟨?_, ?_, hWritten⟩⟩
  · rw [hNames, hScope]
    exact resolve_one hResolve
  · rw [hScope]
    exact hParts

/-- A node that walks its only part. -/
theorem phases_single {x : NodeId} {next : Unit → Analysis Unit}
    (hNames : k.lookups options chain = []) (hScope : k.scope chain = chain)
    (hParts : k.children = [x]) (h : (walk chain x >>= next) (a.visit id) = .ok (u, d))
    (hNext : ∀ {free c}, next () c = .ok (u, d) → Written t chain id k free (a.visit id) c d) :
    ∃ b free c, Phases t options walk chain id k a b c d free := by
  obtain ⟨⟨_, c⟩, hWalk, hRest⟩ := exists_of_bind_eq_ok h
  refine phases_unnamed ((c.note x).effectFree && true) hNames ?_ (hNext hRest)
  rw [hScope, hParts]
  exact walkAll_one hWalk

/-- A node that walks its two parts in turn. -/
theorem phases_pair {x y : NodeId} {next : Unit → Analysis Unit}
    (hNames : k.lookups options chain = []) (hScope : k.scope chain = chain)
    (hParts : k.children = [x, y])
    (h : (walk chain x >>= fun _ => walk chain y >>= next) (a.visit id) = .ok (u, d))
    (hNext : ∀ {free c}, next () c = .ok (u, d) → Written t chain id k free (a.visit id) c d) :
    ∃ b free c, Phases t options walk chain id k a b c d free := by
  obtain ⟨⟨_, b⟩, hFirst, hRest⟩ := exists_of_bind_eq_ok h
  obtain ⟨⟨_, c⟩, hSecond, hEnd⟩ := exists_of_bind_eq_ok hRest
  refine phases_unnamed ((b.note x).effectFree && ((c.note y).effectFree && true)) hNames ?_
    (hNext hEnd)
  rw [hScope, hParts]
  exact walkAll_cons_ok hFirst (walkAll_one hSecond)

/-- A node that walks its parts for their own sake. -/
theorem phases_discard (hNames : k.lookups options chain = [])
    (h : (do let _ ← walkAll walk (k.scope chain) k.children : Analysis Unit) (a.visit id) =
      .ok (u, d))
    (hWritten : ∀ free, Written t chain id k free (a.visit id) d d) :
    ∃ b free c, Phases t options walk chain id k a b c d free := by
  obtain ⟨⟨free, c⟩, hParts, hEnd⟩ := exists_of_bind_eq_ok h
  cases hEnd
  exact phases_unnamed free hNames hParts (hWritten free)

/-- A name or a call: the note of what it refers to is read before its arguments are walked. -/
theorem phases_reference {name : String} (hRead : k.read? = some name)
    (hAssign : k.assigned? = none) (hd : k.isDefinition = false)
    (h : reference t walk chain id name k.children (a.visit id) = .ok (u, d)) :
    ∃ b free c, Phases t options walk chain id k a b c d free := by
  have hDef : k.isDefinition ≠ true := by simp [hd]
  refine phases_named (NodeKind.used?_of_read? hRead) h fun b hRest => ?_
  cases hf : chain.find? name with
  | none =>
    simp only [hf] at hRest
    obtain ⟨⟨free, c⟩, hParts, hEnd⟩ := exists_of_bind_eq_ok hRest
    have hNote := annotate_ok hEnd
    refine ⟨free, c, hParts, hNote.size, hNote.notes, hNote.visits, fun n => ?_, fun _ F _ _ => ?_,
      fun he => absurd he hDef⟩
    · rw [Tree.counted_eq_self, Option.map_id', hNote.states]
      · rw [hRead, Tree.uses_of_not_found hf]
      · rw [hAssign, Tree.uses_none]
    · rw [hNote.self]
      simp [NodeKind.ownFree, hRead, hf, Note.unknown]
  | some target =>
    simp only [hf] at hRest
    obtain ⟨⟨e, b'⟩, hLift, hRest⟩ := exists_of_bind_eq_ok hRest
    obtain ⟨e', -, hEnd⟩ := exists_of_bind_eq_ok hLift
    cases hEnd
    obtain ⟨⟨free, c⟩, hParts, hRest⟩ := exists_of_bind_eq_ok hRest
    obtain ⟨⟨_, c'⟩, hCount, hEnd⟩ := exists_of_bind_eq_ok hRest
    have hCounted := countUse_ok hCount
    have hNote := annotate_ok hEnd
    refine ⟨free, c, hParts, hNote.size.trans hCounted.size,
      fun n hn => (hNote.notes n hn).trans (hCounted.notes n),
      fun n => (hNote.visits n).trans (hCounted.visits n), fun n => ?_, fun _ F _ hFree => ?_,
      fun he => absurd he hDef⟩
    · rw [hNote.states]
      exact Written.states_of_counted hCounted (Written.counted_read hRead hAssign hf) n
    · rw [hNote.self, ← hFree]
      simp [NodeKind.ownFree, hRead, hf]

theorem phases_definition {e : Definition}
    (h : definition walk chain id e (a.visit id) = .ok (u, d)) :
    ∃ b free c, Phases t options walk chain id (.definition e) a b c d free := by
  cases hb : e.body? with
  | none =>
    have hChildren : (NodeKind.definition e).children = [] := by rw [NodeKind.children, hb]; rfl
    rw [definition_of_bodyless hb] at h
    split at h
    · rename_i he
      refine phases_unnamed true rfl ?_ (.of_storage he (setEffectFree_ok h))
      rw [hChildren]
      rfl
    · rename_i he
      cases h
      refine phases_unnamed true rfl ?_ (.nothing rfl rfl rfl (Bool.eq_false_iff.mpr he))
      rw [hChildren]
      rfl
  | some body =>
    have hStorage : (NodeKind.definition e).isStorage = false := by
      cases e <;> first | rfl | cases hb
    rw [definition_of_body? hb] at h
    refine phases_unnamed ((d.note body).effectFree && true) rfl ?_ (.nothing rfl rfl rfl hStorage)
    rw [NodeKind.children, hb]
    exact walkAll_one h

theorem phases_block {stmts : List NodeId} {table : NameTable}
    (hk : t.kind? id = some (.block stmts table))
    (h : block t options walk chain id (a.visit id) = .ok (u, d)) :
    ∃ b free c, Phases t options walk chain id (.block stmts table) a b c d free := by
  rw [block, lift_bind (Tree.block_of_kind? hk)] at h
  dsimp only at h
  split at h
  · rename_i hEmpty
    obtain ⟨⟨_, b⟩, hNames, hRest⟩ := exists_of_bind_eq_ok h
    obtain ⟨⟨free, c⟩, hParts, hEnd⟩ := exists_of_bind_eq_ok hRest
    cases hEnd
    refine ⟨b, free, d, ⟨?_, hParts, .nothing rfl rfl rfl rfl⟩⟩
    rw [NodeKind.lookups, if_pos hEmpty]
    exact hNames
  · rename_i hInner
    exact phases_discard (by rw [NodeKind.lookups, if_neg hInner]) h
      fun _ => .nothing rfl rfl rfl rfl

/-- A walk that ends well goes through the phases. -/
theorem exists_phases (hk : t.kind? id = some k)
    (h : nodeWith t options walk chain id a = .ok (u, d)) :
    ∃ b free c, Phases t options walk chain id k a b c d free := by
  obtain ⟨⟨kind, span⟩, hn, rfl⟩ := Tree.kind?_eq_some_iff.mp hk
  rw [nodeWith, lift_bind (Tree.node_of_get? hn), visit_bind] at h
  cases kind with
  | num value | char value | str value =>
    exact phases_unnamed true rfl rfl (.of_expr (annotate_ok h) rfl rfl rfl fun _ _ _ => rfl)
  | array elems =>
    obtain ⟨⟨free, c⟩, hParts, hEnd⟩ := exists_of_bind_eq_ok h
    exact phases_unnamed free rfl hParts
      (.of_expr (annotate_ok hEnd) rfl rfl rfl fun _ _ hFree => hFree)
  | unary op operand =>
    refine phases_single rfl rfl rfl h fun hEnd => .of_expr (annotate_ok hEnd) rfl rfl rfl ?_
    intro F hF _
    simp [Note.unary, NodeKind.children, hF operand (by simp [NodeKind.children])]
  | binary op lhs rhs =>
    refine phases_pair rfl rfl rfl h fun hEnd => .of_expr (annotate_ok hEnd) rfl rfl rfl ?_
    intro F hF _
    simp [Note.binary, NodeKind.children, hF lhs (by simp [NodeKind.children]),
      hF rhs (by simp [NodeKind.children])]
  | ref name => exact phases_reference rfl rfl rfl h
  | call name args => exact phases_reference rfl rfl rfl h
  | element base index =>
    refine phases_pair rfl rfl rfl h fun hEnd => .of_expr (annotate_ok hEnd) rfl rfl rfl ?_
    intro F hF _
    simp [Note.element, NodeKind.children, hF base (by simp [NodeKind.children]),
      hF index (by simp [NodeKind.children])]
  | range start stop =>
    refine phases_pair rfl rfl rfl h fun hEnd => .of_expr (setEffectFree_ok hEnd) rfl rfl rfl ?_
    intro F hF _
    simp [NodeKind.children, hF start (by simp [NodeKind.children]),
      hF stop (by simp [NodeKind.children])]
  | slice base bounds =>
    refine phases_pair rfl rfl rfl h fun hEnd => .of_expr (annotate_ok hEnd) rfl rfl rfl ?_
    intro F hF _
    simp [Note.slice, NodeKind.children, hF base (by simp [NodeKind.children]),
      hF bounds (by simp [NodeKind.children])]
  | target name indices =>
    refine phases_named rfl h fun b hRest => ?_
    obtain ⟨⟨free, c⟩, hParts, hEnd⟩ := exists_of_bind_eq_ok hRest
    exact ⟨free, c, hParts, countAssign_ok (k := .target name indices) rfl rfl rfl rfl hEnd⟩
  | assign op lhs rhs =>
    exact phases_pair rfl rfl rfl h fun hEnd => .of_stmt (setEffectFree_ok hEnd) rfl rfl rfl rfl
  | succ lhs | pred lhs =>
    exact phases_single rfl rfl rfl h fun hEnd =>
      .of_stmt (setEffectFree_ok hEnd) rfl rfl rfl rfl
  | varInit name rhs =>
    refine phases_named rfl h fun b hRest => ?_
    obtain ⟨⟨_, c⟩, hWalk, hRest⟩ := exists_of_bind_eq_ok hRest
    obtain ⟨⟨_, c'⟩, hNote, hEnd⟩ := exists_of_bind_eq_ok hRest
    refine ⟨_, c, walkAll_one hWalk, ?_⟩
    exact (countAssign_ok (k := .varInit name rhs) rfl rfl rfl rfl hEnd).after_note
      (setEffectFree_ok hNote) rfl rfl
  | callStmt name args =>
    refine phases_named rfl h fun b hRest => ?_
    obtain ⟨⟨free, c⟩, hParts, hEnd⟩ := exists_of_bind_eq_ok hRest
    cases hEnd
    exact ⟨free, d, hParts, .nothing rfl rfl rfl rfl⟩
  | block stmts table => exact phases_block hk h
  | definition e => exact phases_definition h
  | _ => exact phases_discard rfl h fun _ => .nothing rfl rfl rfl rfl

end Analysis

end StageScript

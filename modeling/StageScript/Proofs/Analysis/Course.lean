import Mathlib
import StageScript.Proofs.Analysis.Law

/-!
# The course of an analysis

An analysis can be told as a list of events: nodes are walked, names are looked up, and
definitions are entered at their first use.  What comes next depends on the tree and on the
definitions that were entered before, not on what is noted of values; so the course of an
analysis is a relation of its own (`Course`), and it knows no bound on the depth of walks.

A course is the only one of its errands (`Course.unique`) and enters no definition twice
(`Course.nodup`).  It ends with a fault if and only if something is walked that is broken
(`Course.whole`, `Course.exists_broken`).
-/

namespace StageScript

inductive Errand where
  | lookup (name : String)
  | walk (id : NodeId)

inductive Event where
  /-- A name is looked up in the tables of `chain`. -/
  | lookup (chain : Chain) (name : String)
  /-- A definition is used for the first time, and is going to be walked. -/
  | enter (d : NodeId)
  /-- The walk of a node with the tables of `chain` starts. -/
  | walk (chain : Chain) (id : NodeId)

namespace Event

def entered? : Event → Option NodeId
  | enter d => some d
  | _ => none

def walked? : Event → Option NodeId
  | walk _ id => some id
  | _ => none

end Event

def entered (events : List Event) : List NodeId := events.filterMap Event.entered?

def walked (events : List Event) : List NodeId := events.filterMap Event.walked?

@[simp] theorem entered_nil : entered [] = [] := rfl

@[simp] theorem entered_lookup (chain : Chain) (name : String) (events : List Event) :
    entered (.lookup chain name :: events) = entered events := rfl

@[simp] theorem entered_enter (d : NodeId) (events : List Event) :
    entered (.enter d :: events) = d :: entered events := rfl

@[simp] theorem entered_walk (chain : Chain) (id : NodeId) (events : List Event) :
    entered (.walk chain id :: events) = entered events := rfl

@[simp] theorem entered_append (events more : List Event) :
    entered (events ++ more) = entered events ++ entered more := List.filterMap_append

@[simp] theorem walked_nil : walked [] = [] := rfl

@[simp] theorem walked_lookup (chain : Chain) (name : String) (events : List Event) :
    walked (.lookup chain name :: events) = walked events := rfl

@[simp] theorem walked_enter (d : NodeId) (events : List Event) :
    walked (.enter d :: events) = walked events := rfl

@[simp] theorem walked_walk (chain : Chain) (id : NodeId) (events : List Event) :
    walked (.walk chain id :: events) = id :: walked events := rfl

@[simp] theorem walked_append (events more : List Event) :
    walked (events ++ more) = walked events ++ walked more := List.filterMap_append

theorem mem_walked_iff {events : List Event} {id : NodeId} :
    id ∈ walked events ↔ ∃ chain, .walk chain id ∈ events := by
  rw [walked, List.mem_filterMap]
  constructor
  · rintro ⟨event, hm, he⟩
    cases event with
    | walk chain n =>
      cases he
      exact ⟨chain, hm⟩
    | lookup _ _ => cases he
    | enter _ => cases he
  · rintro ⟨chain, hm⟩
    exact ⟨_, hm, rfl⟩

/-- What the walk of a node of kind `k` has to do, in the order in which it does it: names come
before parts. -/
def NodeKind.errands (options : Options) (chain : Chain) (k : NodeKind) : List Errand :=
  (k.lookups options chain).map .lookup ++ k.children.map .walk

def Tree.Undefined (t : Tree) (d : NodeId) : Prop := ∀ e, t.kind? d ≠ some (.definition e)

/-- The errands are run in their order with the tables of `chain`, after the definitions of `seen`
were entered.  This makes the events, and ends well or with a fault. -/
inductive Course (t : Tree) (options : Options) :
    List NodeId → Chain → List Errand → List Event → Option Diagnostic → Prop
  | done {seen : List NodeId} {chain : Chain} : Course t options seen chain [] [] none
  /-- There is no such node. -/
  | missing {seen : List NodeId} {chain : Chain} {id : NodeId} {rest : List Errand} :
      t.kind? id = none →
      Course t options seen chain (.walk id :: rest) [.walk chain id] (some (Tree.missingNode id))
  | walkFails {seen : List NodeId} {chain : Chain} {id : NodeId} {k : NodeKind}
      {rest : List Errand} {events : List Event} {fault : Diagnostic} :
      t.kind? id = some k →
      Course t options seen (k.scope chain) (k.errands options chain) events (some fault) →
      Course t options seen chain (.walk id :: rest) (.walk chain id :: events) (some fault)
  | walk {seen : List NodeId} {chain : Chain} {id : NodeId} {k : NodeKind} {rest : List Errand}
      {events more : List Event} {fault : Option Diagnostic} :
      t.kind? id = some k →
      Course t options seen (k.scope chain) (k.errands options chain) events none →
      Course t options (seen ++ entered events) chain rest more fault →
      Course t options seen chain (.walk id :: rest) (.walk chain id :: (events ++ more)) fault
  /-- No table has the name. -/
  | unknown {seen : List NodeId} {chain : Chain} {name : String} {rest : List Errand}
      {more : List Event} {fault : Option Diagnostic} :
      chain.declaring? name = none →
      Course t options seen chain rest more fault →
      Course t options seen chain (.lookup name :: rest) (.lookup chain name :: more) fault
  /-- The name stands for what is no definition. -/
  | misdeclared {seen : List NodeId} {chain declared : Chain} {name : String} {d : NodeId}
      {rest : List Errand} :
      chain.declaring? name = some (declared, d) → t.Undefined d →
      Course t options seen chain (.lookup name :: rest) [.lookup chain name]
        (some (Annotations.missing d "definition state"))
  /-- The name stands for a definition that was entered before. -/
  | known {seen : List NodeId} {chain declared : Chain} {name : String} {d : NodeId}
      {rest : List Errand} {more : List Event} {fault : Option Diagnostic} :
      chain.declaring? name = some (declared, d) → d ∈ seen → ¬ t.Undefined d →
      Course t options seen chain rest more fault →
      Course t options seen chain (.lookup name :: rest) (.lookup chain name :: more) fault
  | enterFails {seen : List NodeId} {chain declared : Chain} {name : String} {d : NodeId}
      {rest : List Errand} {events : List Event} {fault : Diagnostic} :
      chain.declaring? name = some (declared, d) → d ∉ seen → ¬ t.Undefined d →
      Course t options (seen ++ [d]) declared [.walk d] events (some fault) →
      Course t options seen chain (.lookup name :: rest)
        (.lookup chain name :: .enter d :: events) (some fault)
  /-- A definition is walked with the tables of the block that declares it. -/
  | enter {seen : List NodeId} {chain declared : Chain} {name : String} {d : NodeId}
      {rest : List Errand} {events more : List Event} {fault : Option Diagnostic} :
      chain.declaring? name = some (declared, d) → d ∉ seen → ¬ t.Undefined d →
      Course t options (seen ++ [d]) declared [.walk d] events none →
      Course t options (seen ++ d :: entered events) chain rest more fault →
      Course t options seen chain (.lookup name :: rest)
        (.lookup chain name :: .enter d :: (events ++ more)) fault

namespace Course

variable {t : Tree} {options : Options} {seen : List NodeId} {chain : Chain}
  {errands rest : List Errand} {events more : List Event} {fault : Option Diagnostic}

/-- Errands after which nothing is left to do are followed by others. -/
theorem append (h : Course t options seen chain errands events none)
    (g : Course t options (seen ++ entered events) chain rest more fault) :
    Course t options seen chain (errands ++ rest) (events ++ more) fault := by
  generalize hn : (none : Option Diagnostic) = end? at h
  induction h with
  | done => simpa using g
  | missing _ => cases hn
  | walkFails _ _ _ => cases hn
  | walk hk hParts hRest _ ih =>
    subst hn
    rw [List.cons_append, List.cons_append, List.append_assoc]
    exact .walk hk hParts (ih (by simpa using g) rfl)
  | unknown hd _ ih => exact .unknown hd (ih g hn)
  | misdeclared _ _ => cases hn
  | known hd hs hu _ ih => exact .known hd hs hu (ih g hn)
  | enterFails _ _ _ _ _ => cases hn
  | enter hd hs hu hBody _ _ ih =>
    subst hn
    rw [List.cons_append, List.cons_append, List.cons_append, List.append_assoc]
    exact .enter hd hs hu hBody (ih (by simpa using g) rfl)

/-- After a fault nothing is done. -/
theorem append_fault {d : Diagnostic} (h : Course t options seen chain errands events (some d))
    (rest : List Errand) : Course t options seen chain (errands ++ rest) events (some d) := by
  generalize hn : some d = end? at h
  induction h with
  | done => cases hn
  | missing hk =>
    cases hn
    exact .missing hk
  | walkFails hk hParts _ =>
    cases hn
    exact .walkFails hk hParts
  | walk hk hParts _ _ ih => exact .walk hk hParts (ih hn)
  | unknown hd _ ih => exact .unknown hd (ih hn)
  | misdeclared hd hu =>
    cases hn
    exact .misdeclared hd hu
  | known hd hs hu _ ih => exact .known hd hs hu (ih hn)
  | enterFails hd hs hu hBody _ =>
    cases hn
    exact .enterFails hd hs hu hBody
  | enter hd hs hu hBody _ _ ih => exact .enter hd hs hu hBody (ih hn)

/-- The walk of a node that is there: what it has to do fails, or the rest follows. -/
theorem walk_cases {id : NodeId} {k : NodeKind}
    (h : Course t options seen chain (.walk id :: rest) events fault) (hk : t.kind? id = some k) :
    (∃ parts d, Course t options seen (k.scope chain) (k.errands options chain) parts (some d) ∧
        events = .walk chain id :: parts ∧ fault = some d) ∨
      ∃ parts more, Course t options seen (k.scope chain) (k.errands options chain) parts none ∧
        Course t options (seen ++ entered parts) chain rest more fault ∧
        events = .walk chain id :: (parts ++ more) := by
  cases h with
  | missing hNone => cases hk.symm.trans hNone
  | walkFails hl hParts =>
    cases hk.symm.trans hl
    exact Or.inl ⟨_, _, hParts, rfl, rfl⟩
  | walk hl hParts hRest =>
    cases hk.symm.trans hl
    exact Or.inr ⟨_, _, hParts, hRest, rfl⟩

/-- The first use of a definition: its walk fails, or the rest follows. -/
theorem enter_cases {declared : Chain} {name : String} {d : NodeId}
    (h : Course t options seen chain (.lookup name :: rest) events fault)
    (hd : chain.declaring? name = some (declared, d)) (hs : d ∉ seen) (hu : ¬ t.Undefined d) :
    (∃ body e, Course t options (seen ++ [d]) declared [.walk d] body (some e) ∧
        events = .lookup chain name :: .enter d :: body ∧ fault = some e) ∨
      ∃ body more, Course t options (seen ++ [d]) declared [.walk d] body none ∧
        Course t options (seen ++ d :: entered body) chain rest more fault ∧
        events = .lookup chain name :: .enter d :: (body ++ more) := by
  cases h with
  | unknown he _ => cases hd.symm.trans he
  | misdeclared he hv =>
    cases hd.symm.trans he
    exact absurd hv hu
  | known he hSeen _ _ =>
    cases hd.symm.trans he
    exact absurd hSeen hs
  | enterFails he _ _ hBody =>
    cases hd.symm.trans he
    exact Or.inl ⟨_, _, hBody, rfl, rfl⟩
  | enter he _ _ hBody hRest =>
    cases hd.symm.trans he
    exact Or.inr ⟨_, _, hBody, hRest, rfl⟩

/-- What happens is decided by what there is to do. -/
theorem unique (h : Course t options seen chain errands events fault) :
    ∀ {others : List Event} {other : Option Diagnostic},
      Course t options seen chain errands others other → others = events ∧ other = fault := by
  induction h with
  | done =>
    intro others other g
    cases g
    exact ⟨rfl, rfl⟩
  | missing hk =>
    intro others other g
    cases g with
    | missing _ => exact ⟨rfl, rfl⟩
    | walkFails hl _ | walk hl _ _ => cases hk.symm.trans hl
  | walkFails hk _ ih =>
    intro others other g
    rcases g.walk_cases hk with ⟨parts, d, gParts, rfl, rfl⟩ | ⟨parts, more, gParts, -⟩
    · obtain ⟨rfl, hFault⟩ := ih gParts
      exact ⟨rfl, hFault⟩
    · cases (ih gParts).2
  | walk hk _ _ ihParts ihRest =>
    intro others other g
    rcases g.walk_cases hk with ⟨parts, d, gParts, -⟩ | ⟨parts, more, gParts, gRest, rfl⟩
    · cases (ihParts gParts).2
    · obtain ⟨rfl, -⟩ := ihParts gParts
      obtain ⟨rfl, rfl⟩ := ihRest gRest
      exact ⟨rfl, rfl⟩
  | unknown hd _ ih =>
    intro others other g
    cases g with
    | unknown _ g =>
      obtain ⟨rfl, rfl⟩ := ih g
      exact ⟨rfl, rfl⟩
    | misdeclared he _ | known he _ _ _ | enterFails he _ _ _ | enter he _ _ _ _ =>
      cases hd.symm.trans he
  | misdeclared hd hu =>
    intro others other g
    cases g with
    | unknown he _ => cases hd.symm.trans he
    | misdeclared he _ =>
      cases hd.symm.trans he
      exact ⟨rfl, rfl⟩
    | known he _ hv _ | enterFails he _ hv _ | enter he _ hv _ _ =>
      cases hd.symm.trans he
      exact absurd hu hv
  | known hd hs hu _ ih =>
    intro others other g
    cases g with
    | unknown he _ => cases hd.symm.trans he
    | misdeclared he hv =>
      cases hd.symm.trans he
      exact absurd hv hu
    | known _ _ _ g =>
      obtain ⟨rfl, rfl⟩ := ih g
      exact ⟨rfl, rfl⟩
    | enterFails he hs' _ _ | enter he hs' _ _ _ =>
      cases hd.symm.trans he
      exact absurd hs hs'
  | enterFails hd hs hu _ ih =>
    intro others other g
    rcases g.enter_cases hd hs hu with ⟨body, e, gBody, rfl, rfl⟩ | ⟨body, more, gBody, -⟩
    · obtain ⟨rfl, hFault⟩ := ih gBody
      exact ⟨rfl, hFault⟩
    · cases (ih gBody).2
  | enter hd hs hu _ _ ihBody ihRest =>
    intro others other g
    rcases g.enter_cases hd hs hu with ⟨body, e, gBody, -⟩ | ⟨body, more, gBody, gRest, rfl⟩
    · cases (ihBody gBody).2
    · obtain ⟨rfl, -⟩ := ihBody gBody
      obtain ⟨rfl, rfl⟩ := ihRest gRest
      exact ⟨rfl, rfl⟩

/-- No definition is entered twice, and none that was entered before. -/
theorem nodup (h : Course t options seen chain errands events fault) (hs : seen.Nodup) :
    (seen ++ entered events).Nodup := by
  induction h with
  | done => simpa using hs
  | missing _ => simpa using hs
  | walkFails _ _ ih => exact ih hs
  | walk _ _ _ ihParts ihRest =>
    have hParts := ihRest (ihParts hs)
    simpa using hParts
  | unknown _ _ ih => exact ih hs
  | misdeclared _ _ => simpa using hs
  | known _ _ _ _ ih => exact ih hs
  | enterFails _ hd _ _ ih =>
    have hBody := ih (List.concat_eq_append ▸ hs.concat hd)
    simpa using hBody
  | enter _ hd _ _ _ ihBody ihRest =>
    have hBody := ihBody (List.concat_eq_append ▸ hs.concat hd)
    have hRest := ihRest (by simpa using hBody)
    simpa using hRest

end Course

/-! ### Faults -/

def Misdeclares (t : Tree) (chain : Chain) (name : String) : Prop :=
  ∃ d, chain.find? name = some d ∧ t.Undefined d

/-- A node of kind `k`, walked with the tables of `chain`, has a part that is not there, or looks
up a name that stands for what is no definition. -/
def NodeKind.Broken (t : Tree) (options : Options) (chain : Chain) (k : NodeKind) : Prop :=
  (∃ c ∈ k.children, t.kind? c = none) ∨
    ∃ name ∈ k.lookups options chain, Misdeclares t (k.scope chain) name

def Errand.Fails (t : Tree) (chain : Chain) : Errand → Prop
  | walk id => t.kind? id = none
  | lookup name => Misdeclares t chain name

/-- A node is broken if it has an errand that cannot be run. -/
theorem NodeKind.broken_iff {t : Tree} {options : Options} {chain : Chain} {k : NodeKind} :
    k.Broken t options chain ↔ ∃ e ∈ k.errands options chain, e.Fails t (k.scope chain) := by
  rw [Broken, errands]
  constructor
  · rintro (⟨c, hc, hNone⟩ | ⟨name, hn, hMis⟩)
    · exact ⟨.walk c, by simp [hc], hNone⟩
    · exact ⟨.lookup name, by simp [hn], hMis⟩
  · rintro ⟨e, he, hFails⟩
    rcases List.mem_append.mp he with he | he
    · obtain ⟨name, hn, rfl⟩ := List.mem_map.mp he
      exact Or.inr ⟨name, hn, hFails⟩
    · obtain ⟨c, hc, rfl⟩ := List.mem_map.mp he
      exact Or.inl ⟨c, hc, hFails⟩

theorem misdeclares_of_declaring? {t : Tree} {chain declared : Chain} {name : String} {d : NodeId}
    (hd : chain.declaring? name = some (declared, d)) : Misdeclares t chain name ↔ t.Undefined d := by
  have hf : chain.find? name = some d := by
    rw [Chain.find?_eq_declaring?, hd]
    rfl
  rw [Misdeclares, hf]
  simp

def WalksBroken (t : Tree) (options : Options) (events : List Event) : Prop :=
  ∃ chain id k, .walk chain id ∈ events ∧ t.kind? id = some k ∧ k.Broken t options chain

namespace WalksBroken

variable {t : Tree} {options : Options} {events more : List Event}

theorem mono (h : WalksBroken t options events) (hMem : events ⊆ more) :
    WalksBroken t options more := by
  obtain ⟨chain, id, k, hm, hk, hb⟩ := h
  exact ⟨chain, id, k, hMem hm, hk, hb⟩

theorem append_iff : WalksBroken t options (events ++ more) ↔
    WalksBroken t options events ∨ WalksBroken t options more := by
  constructor
  · rintro ⟨chain, id, k, hm, hk, hb⟩
    rcases List.mem_append.mp hm with hm | hm
    · exact Or.inl ⟨chain, id, k, hm, hk, hb⟩
    · exact Or.inr ⟨chain, id, k, hm, hk, hb⟩
  · rintro (h | h)
    · exact h.mono (List.subset_append_left _ _)
    · exact h.mono (List.subset_append_right _ _)

theorem cons_iff {event : Event} : WalksBroken t options (event :: events) ↔
    WalksBroken t options [event] ∨ WalksBroken t options events := by
  rw [← append_iff, List.singleton_append]

theorem walk_iff {chain : Chain} {id : NodeId} {k : NodeKind} (hk : t.kind? id = some k) :
    WalksBroken t options [.walk chain id] ↔ k.Broken t options chain := by
  constructor
  · rintro ⟨chain', id', k', hm, hk', hb⟩
    cases List.mem_singleton.mp hm
    cases hk.symm.trans hk'
    exact hb
  · exact fun hb => ⟨chain, id, k, List.mem_singleton.mpr rfl, hk, hb⟩

theorem not_lookup {chain : Chain} {name : String} :
    ¬ WalksBroken t options [.lookup chain name] := by
  rintro ⟨_, _, _, hm, -⟩
  cases List.mem_singleton.mp hm

theorem not_enter {d : NodeId} : ¬ WalksBroken t options [.enter d] := by
  rintro ⟨_, _, _, hm, -⟩
  cases List.mem_singleton.mp hm

end WalksBroken

namespace Course

variable {t : Tree} {options : Options} {seen : List NodeId} {chain : Chain}
  {errands : List Errand} {events : List Event} {fault : Option Diagnostic}

/-- A course that ends well could run its errands, and walks nothing that is broken. -/
theorem whole (h : Course t options seen chain errands events none) :
    (∀ e ∈ errands, ¬ e.Fails t chain) ∧ ¬ WalksBroken t options events := by
  generalize hn : (none : Option Diagnostic) = end? at h
  induction h with
  | done =>
    refine ⟨List.forall_mem_nil _, ?_⟩
    rintro ⟨_, _, _, hm, -⟩
    cases hm
  | missing _ => cases hn
  | walkFails _ _ _ => cases hn
  | @walk seen chain id k rest events more _ hk _ _ ihParts ihRest =>
    obtain ⟨hErrands, hParts⟩ := ihParts rfl
    obtain ⟨hRest, hMore⟩ := ihRest hn
    have hNode : ¬ k.Broken t options chain := by
      rw [NodeKind.broken_iff]
      rintro ⟨e, he, hFails⟩
      exact hErrands e he hFails
    refine ⟨List.forall_mem_cons.mpr ⟨?_, hRest⟩, ?_⟩
    · rw [Errand.Fails, hk]
      simp
    · rw [WalksBroken.cons_iff, WalksBroken.append_iff, WalksBroken.walk_iff hk]
      exact not_or.mpr ⟨hNode, not_or.mpr ⟨hParts, hMore⟩⟩
  | unknown hd _ ih =>
    obtain ⟨hRest, hMore⟩ := ih hn
    refine ⟨List.forall_mem_cons.mpr ⟨?_, hRest⟩, ?_⟩
    · rintro ⟨d, hf, -⟩
      rw [Chain.find?_eq_declaring?, hd] at hf
      cases hf
    · rw [WalksBroken.cons_iff]
      exact not_or.mpr ⟨WalksBroken.not_lookup, hMore⟩
  | misdeclared _ _ => cases hn
  | known hd _ hu _ ih =>
    obtain ⟨hRest, hMore⟩ := ih hn
    refine ⟨List.forall_mem_cons.mpr ⟨?_, hRest⟩, ?_⟩
    · rw [Errand.Fails, misdeclares_of_declaring? hd]
      exact hu
    · rw [WalksBroken.cons_iff]
      exact not_or.mpr ⟨WalksBroken.not_lookup, hMore⟩
  | enterFails _ _ _ _ _ => cases hn
  | enter hd _ hu _ _ ihBody ihRest =>
    obtain ⟨-, hBody⟩ := ihBody rfl
    obtain ⟨hRest, hMore⟩ := ihRest hn
    refine ⟨List.forall_mem_cons.mpr ⟨?_, hRest⟩, ?_⟩
    · rw [Errand.Fails, misdeclares_of_declaring? hd]
      exact hu
    · intro hb
      rcases WalksBroken.cons_iff.mp hb with hb | hb
      · exact WalksBroken.not_lookup hb
      · rcases WalksBroken.cons_iff.mp hb with hb | hb
        · exact WalksBroken.not_enter hb
        · exact (WalksBroken.append_iff.mp hb).elim hBody hMore

/-- A course that ends with a fault had an errand that cannot be run, or walks something that is
broken. -/
theorem exists_broken {d : Diagnostic} (h : Course t options seen chain errands events (some d)) :
    (∃ e ∈ errands, e.Fails t chain) ∨ WalksBroken t options events := by
  generalize hn : some d = end? at h
  induction h with
  | done => cases hn
  | missing hk => exact Or.inl ⟨_, List.mem_cons_self, hk⟩
  | @walkFails seen chain id k rest events fault hk _ ih =>
    right
    rw [WalksBroken.cons_iff, WalksBroken.walk_iff hk, NodeKind.broken_iff]
    exact ih hn
  | walk hk _ _ _ ih =>
    rcases ih hn with ⟨e, he, hFails⟩ | hMore
    · exact Or.inl ⟨e, List.mem_cons_of_mem _ he, hFails⟩
    · exact Or.inr (hMore.mono (List.subset_cons_of_subset _ (List.subset_append_right _ _)))
  | unknown _ _ ih =>
    rcases ih hn with ⟨e, he, hFails⟩ | hMore
    · exact Or.inl ⟨e, List.mem_cons_of_mem _ he, hFails⟩
    · exact Or.inr (hMore.mono (List.subset_cons_self _ _))
  | misdeclared hd hu => exact Or.inl ⟨_, List.mem_cons_self, (misdeclares_of_declaring? hd).mpr hu⟩
  | known _ _ _ _ ih =>
    rcases ih hn with ⟨e, he, hFails⟩ | hMore
    · exact Or.inl ⟨e, List.mem_cons_of_mem _ he, hFails⟩
    · exact Or.inr (hMore.mono (List.subset_cons_self _ _))
  | @enterFails seen chain declared name d rest events fault hd _ hu _ ih =>
    rcases ih hn with ⟨e, he, hFails⟩ | hBody
    · exfalso
      -- The definition is there, so its walk can start.
      cases List.mem_singleton.mp he
      apply hu
      intro e he
      cases hFails.symm.trans he
    · refine Or.inr (hBody.mono ?_)
      exact List.subset_cons_of_subset _ (List.subset_cons_self _ _)
  | enter _ _ _ _ _ _ ih =>
    rcases ih hn with ⟨e, he, hFails⟩ | hMore
    · exact Or.inl ⟨e, List.mem_cons_of_mem _ he, hFails⟩
    · refine Or.inr (hMore.mono ?_)
      exact List.subset_cons_of_subset _
        (List.subset_cons_of_subset _ (List.subset_append_right _ _))

/-- The fault of a course is one of the tree. -/
theorem fault_malformed {d : Diagnostic}
    (h : Course t options seen chain errands events (some d)) :
    ∃ reason, d.cause = .malformedTree reason := by
  generalize hn : some d = end? at h
  induction h with
  | done => cases hn
  | missing _ =>
    cases hn
    exact ⟨_, rfl⟩
  | walkFails _ _ ih => exact ih hn
  | walk _ _ _ _ ih => exact ih hn
  | unknown _ _ ih => exact ih hn
  | misdeclared _ _ =>
    cases hn
    exact ⟨_, rfl⟩
  | known _ _ _ _ ih => exact ih hn
  | enterFails _ _ _ _ ih => exact ih hn
  | enter _ _ _ _ _ _ ih => exact ih hn

end Course

end StageScript

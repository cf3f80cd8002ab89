import StageScript.Parse.Reply

/-!
# Triples of parsing steps

A parser reads tokens and builds a tree and tables.  What it builds is its `Store`; the
place in the tokens and the nesting do not matter for it.  `Triple pre step post` says what
a step does to the store: from a store with `pre` it ends in one with `post`, or it fails
with a fault of the script, never with a fault of the tree.

A step that reads tokens only keeps every property of the store (`Reads`).
-/

namespace StageScript

/-- What a parser has built: the tree, and the tables of the open blocks. -/
structure Store where
  tree : Tree
  /-- The table of the innermost open block. -/
  table : NameTable
  /-- The tables around it, the innermost first. -/
  outer : Chain

def Parser.store (p : Parser) : Store := ⟨p.tree, p.table, p.outer⟩

namespace Parse

/-! ### Steps in a row -/

section Bind

variable {α β : Type}

theorem bind_of_ok {step : Parse α} {p q : Parser} {a : α} (h : step p = .ok a q)
    (next : α → Parse β) : (step >>= next) p = next a q := by
  simp only [bind, h]

theorem bind_of_fail {step : Parse α} {p q : Parser} {d : Diagnostic} (h : step p = .fail d q)
    (next : α → Parse β) : (step >>= next) p = .fail d q := by
  simp only [bind, h]

theorem bind_bind {γ : Type} (x : Parse α) (f : α → Parse β) (g : β → Parse γ) :
    x >>= f >>= g = x >>= fun a => f a >>= g := by
  funext p
  cases h : x p <;> simp only [bind, h]

theorem bind_eq_ok {step : Parse α} {next : α → Parse β} {p r : Parser} {b : β}
    (h : (step >>= next) p = .ok b r) : ∃ a q, step p = .ok a q ∧ next a q = .ok b r := by
  cases hs : step p with
  | ok a q => exact ⟨a, q, rfl, by rwa [bind_of_ok hs] at h⟩
  | fail d q =>
    simp only [bind, hs] at h
    cases h

end Bind

/-! ### Triples -/

/-- The reply is a value and a store with `post`, or a fault of the script. -/
def Meets {α : Type} (post : α → Store → Prop) : Reply α → Prop
  | .ok a q => post a q.store
  | .fail d _ => d.isFatal = false

/-- From a store with `pre`, the step ends in a store with `post` or with a fault of the
script. -/
def Triple {α : Type} (pre : Store → Prop) (step : Parse α) (post : α → Store → Prop) : Prop :=
  ∀ p, pre p.store → Meets post (step p)

def Reads {α : Type} (step : Parse α) : Prop :=
  ∀ pre : Store → Prop, Triple pre step fun _ => pre

section Rules

variable {α β : Type} {pre mid : Store → Prop} {step : Parse α} {post : α → Store → Prop}

theorem Triple.pure {a : α} (h : ∀ s, pre s → post a s) : Triple pre (pure a) post :=
  fun _ hp => h _ hp

theorem Triple.bind {next : α → Parse β} {goal : β → Store → Prop} (h : Triple pre step post)
    (hn : ∀ a, Triple (post a) (next a) goal) : Triple pre (step >>= next) goal := by
  intro p hp
  have hs := h p hp
  change Meets goal (match step p with
    | .ok a q => next a q
    | .fail d q => .fail d q)
  cases hr : step p with
  | ok a q =>
    rw [hr] at hs
    exact hn a q hs
  | fail d q =>
    rw [hr] at hs
    exact hs

theorem Triple.weaken {goal : α → Store → Prop} (h : Triple pre step post)
    (hg : ∀ a s, post a s → goal a s) : Triple pre step goal := by
  intro p hp
  have hs := h p hp
  cases hr : step p with
  | ok a q =>
    rw [hr] at hs
    exact hg a _ hs
  | fail d q =>
    rw [hr] at hs
    exact hs

theorem Triple.strengthen (h : Triple mid step post) (hp : ∀ s, pre s → mid s) :
    Triple pre step post :=
  fun p hs => h p (hp _ hs)

theorem Triple.map {f : α → β} {goal : β → Store → Prop} (h : Triple pre step post)
    (hg : ∀ a s, post a s → goal (f a) s) : Triple pre (f <$> step) goal :=
  h.bind fun a => .pure fun s hs => hg a s hs

/-- What can be seen of the store can be used in the rest of a proof. -/
theorem Triple.intro (h : ∀ s, pre s → Triple (fun u => pre u ∧ u = s) step post) :
    Triple pre step post :=
  fun p hp => h p.store hp p ⟨hp, rfl⟩

theorem Triple.ite {c : Prop} [Decidable c] {other : Parse α} (h : c → Triple pre step post)
    (ho : ¬ c → Triple pre other post) : Triple pre (if c then step else other) post := by
  split
  · exact h ‹_›
  · exact ho ‹_›

/-- A step that reads tokens, followed by others. -/
theorem Reads.bind {next : α → Parse β} {goal : β → Store → Prop} (h : Reads step)
    (hn : ∀ a, Triple pre (next a) goal) : Triple pre (step >>= next) goal :=
  (h pre).bind hn

end Rules

/-! ### Steps that read tokens -/

theorem reads_pure {α : Type} (a : α) : Reads (pure a) := fun _ _ hp => hp

theorem Reads.seq {α β : Type} {step : Parse α} {next : α → Parse β} (h : Reads step)
    (hn : ∀ a, Reads (next a)) : Reads (step >>= next) :=
  fun pre => h.bind fun a => hn a pre

theorem reads_look {α : Type} (f : Parser → α) : Reads (look f) := fun _ _ hp => hp

theorem reads_advance : Reads advance := fun _ _ hp => hp

theorem reads_eat (kind : TokenKind) : Reads (eat kind) := by
  intro pre p hp
  rw [eat]
  split <;> exact hp

theorem reads_atKind (kind : TokenKind) : Reads (atKind kind) := reads_look _

theorem reads_atSymbol (s : Symbol) : Reads (atSymbol s) := reads_look _

theorem reads_unexpected {α : Type} (reason : String) : Reads (unexpected reason : Parse α) :=
  fun _ _ _ => rfl

theorem reads_tooDeep {α : Type} : Reads (tooDeep : Parse α) := fun _ _ _ => rfl

theorem reads_expectOr (kind : TokenKind) {d : Diagnostic} (h : d.isFatal = false) :
    Reads (expectOr kind d) := by
  intro pre p hp
  rw [expectOr]
  split
  · exact hp
  · exact h

theorem reads_expect (kind : TokenKind) : Reads (expect kind) := by
  intro pre p hp
  exact reads_expectOr kind (d := p.complaint s!"expected {kind.name}") rfl pre p hp

theorem reads_expectSymbol (s : Symbol) : Reads (expectSymbol s) :=
  (reads_expect _).seq fun _ => reads_pure _

theorem reads_expectName (context : String) : Reads (expectName context) := by
  intro pre p hp
  exact reads_expectOr .identifier (d := p.complaint s!"expected identifier {context}") rfl pre p hp

theorem reads_enter : Reads enter := by
  intro pre p hp
  rw [enter]
  split
  · exact reads_tooDeep (α := Unit) pre p hp
  · exact hp

/-- A step one level deeper does what it does here. -/
theorem Triple.nested {α : Type} {pre : Store → Prop} {step : Parse α} {post : α → Store → Prop}
    (h : Triple pre step post) : Triple pre (nested step) post := by
  refine reads_enter.bind fun _ p hp => ?_
  have hs := h p hp
  cases hr : step p with
  | ok a q =>
    rw [hr] at hs
    exact hs
  | fail d q =>
    rw [hr] at hs
    exact hs

end Parse

end StageScript

import StageScript.Proofs.Grammar.Complete
import StageScript.Proofs.Render.Program

/-!
# Exact outcomes of parsing steps

`Judged fits post reply` says how a step ends that is taken in front of words it can read: with
a value and a parser of which `post` holds if the words are nested within the levels that are
left (`fits`), and with the fault of going too deep if they are not.  No other fault occurs.

What is left in front of the parser, and what stays true of its tree however the tree grows, is
kept by `After`.
-/

namespace StageScript

namespace Parser

variable {p : Parser} {w : Word} {rest : List Word}

def ahead (p : Parser) : List Word := p.left.map Token.word

theorem word_of_ahead (h : p.ahead = w :: rest) : p.current.word = w := by
  obtain ⟨token, more, hLeft, hWord, -⟩ := List.map_eq_cons_iff.mp h
  rw [current_of_left hLeft, hWord]

theorem kind_of_ahead (h : p.ahead = w :: rest) : p.kind = w.kind :=
  congrArg Word.kind (word_of_ahead h)

theorem ahead_advanced (h : p.ahead = w :: rest) : p.advanced.ahead = rest := by
  obtain ⟨token, more, hLeft, -, hRest⟩ := List.map_eq_cons_iff.mp h
  rw [ahead, left_advanced hLeft, hRest]

/-- A loop has a round for every word that is left, and one more. -/
theorem rounds_eq (p : Parser) : p.rounds = p.ahead.length + 1 := by
  rw [ahead, List.length_map, left, List.length_drop, Array.length_toList, rounds]

theorem length_lt_rounds (p : Parser) : p.ahead.length < p.rounds := by
  rw [p.rounds_eq]
  exact Nat.lt_succ_self _

/-- A round that takes words leaves enough of the rounds for the rest. -/
theorem length_lt_of_rounds {q : Parser} {ws : List Word} {k : Nat} (hp : p.ahead = ws)
    (hq : q.ahead = rest) (h : p.ahead.length < k + 1) (hLess : rest.length < ws.length) :
    q.ahead.length < k := by
  rw [hq]
  rw [hp] at h
  omega

theorem hasTokens_of_ahead (h : p.ahead = w :: rest) :
    p.hasTokens = decide (w.kind ≠ .eof) := by
  obtain ⟨token, more, hLeft, -, -⟩ := List.map_eq_cons_iff.mp h
  rw [hasTokens, kind_of_ahead h, decide_eq_true (lt_size_of_left hLeft), Bool.true_and]

end Parser

/-- From `p`, a parser came to `q` with the words `rest` in front of it: the tree has only
grown, everything else is as it was, and `Γ` holds of the tree and of all it can grow to. -/
structure After (p : Parser) (rest : List Word) (Γ : Tree → Prop) (q : Parser) : Prop where
  proper : q.Proper
  ahead : q.ahead = rest
  nesting : q.nesting = p.nesting
  table : q.table = p.table
  outer : q.outer = p.outer
  tree : p.tree.Extends q.tree
  lasts : ∀ u, q.tree.Extends u → Γ u

structure Made (p : Parser) (kind : NodeKind) (id : NodeId) (t : Tree) : Prop where
  kind : t.kind? id = some kind
  fresh : p.tree.size ≤ id

namespace After

variable {p q r : Parser} {w : Word} {rest more : List Word} {Γ Δ : Tree → Prop} {n : Nat}

theorem refl (hp : p.Proper) (h : p.ahead = rest) : After p rest (fun _ => True) p :=
  ⟨hp, h, rfl, rfl, rfl, .refl _, fun _ _ => trivial⟩

theorem trans (h : After p rest Γ q) (g : After q more Δ r) :
    After p more (fun u => Γ u ∧ Δ u) r where
  proper := g.proper
  ahead := g.ahead
  nesting := g.nesting.trans h.nesting
  table := g.table.trans h.table
  outer := g.outer.trans h.outer
  tree := h.tree.trans g.tree
  lasts u hu := ⟨h.lasts u (g.tree.trans hu), g.lasts u hu⟩

theorem imp (h : After p rest Γ q) (hΓ : ∀ u, Γ u → Δ u) : After p rest Δ q :=
  { h with lasts := fun u hu => hΓ u (h.lasts u hu) }

/-- What lasts holds now. -/
theorem holds (h : After p rest Γ q) : Γ q.tree := h.lasts _ (.refl _)

theorem roomy (h : After p rest Γ q) (hp : Roomy n p) : Roomy n q :=
  ⟨h.proper, by rw [h.nesting]; exact hp.levels⟩

theorem size_le (h : After p rest Γ q) : p.tree.size ≤ q.tree.size := by
  rw [Tree.size, Tree.size, ← Array.length_toList, ← Array.length_toList]
  exact h.tree.length_le

theorem kind_eq (h : After p (w :: rest) Γ q) : q.kind = w.kind := Parser.kind_of_ahead h.ahead

theorem advance (h : After p (w :: rest) Γ q) : After p rest Γ q.advanced :=
  { h with
    proper := ⟨h.proper.grammar, h.proper.ends⟩
    ahead := Parser.ahead_advanced h.ahead }

theorem push (h : After p rest Γ q) (kind : NodeKind) (span : Span) :
    After p rest (fun u => Γ u ∧ Made p kind q.tree.size u)
      { q with tree := q.tree.push ⟨kind, span⟩ } where
  proper := ⟨h.proper.grammar, h.proper.ends⟩
  ahead := h.ahead
  nesting := h.nesting
  table := h.table
  outer := h.outer
  tree := h.tree.trans (.push _ _)
  lasts u hu := ⟨h.lasts u ((Tree.Extends.push _ _).trans hu),
    hu.kind? (Tree.kind?_push_size _ _), h.size_le⟩

end After

namespace Parse

variable {α β : Type} {fits more : Prop} {post goal : α → Parser → Prop}

/-- The step ends well if `fits`, and by going too deep if not. -/
def Judged (fits : Prop) (post : α → Parser → Prop) : Reply α → Prop
  | .ok a q => fits ∧ post a q
  | .fail d _ => ¬ fits ∧ d.cause = .nestingTooDeep maxNesting

theorem Judged.of_iff {reply : Reply α} (hf : fits ↔ more) (h : Judged fits post reply) :
    Judged more post reply :=
  propext hf ▸ h

theorem Judged.imp {reply : Reply α} (h : Judged fits post reply)
    (hp : ∀ a q, post a q → goal a q) : Judged fits goal reply := by
  cases reply with
  | ok a q => exact ⟨h.1, hp a q h.2⟩
  | fail d q => exact h

theorem Judged.pure {a : α} {q : Parser} (h : post a q) :
    Judged True post ((Pure.pure a : Parse α) q) :=
  ⟨trivial, h⟩

/-- Two steps fit if both do. -/
theorem Judged.seq {goal : β → Parser → Prop} {step : Parse α} {next : α → Parse β} {q : Parser}
    (h : Judged fits post (step q)) (hNext : ∀ a r, post a r → Judged more goal (next a r)) :
    Judged (fits ∧ more) goal ((step >>= next) q) := by
  change Judged _ _ (match step q with
    | .ok a r => next a r
    | .fail d r => .fail d r)
  cases hr : step q with
  | ok a r =>
    rw [hr] at h
    exact .of_iff (and_iff_right h.1).symm (hNext a r h.2)
  | fail d r =>
    rw [hr] at h
    exact ⟨fun hf => h.1 hf.1, h.2⟩

section Steps

variable {goal : β → Parser → Prop} {p q : Parser} {w : Word} {rest after : List Word}
  {Γ : Tree → Prop}

/-- What was known before a step is still known after it. -/
theorem Judged.bind {F : α → Tree → Prop} {step : Parse α} {next : α → Parse β}
    (hq : After p rest Γ q) (h : Judged fits (fun a r => After q after (F a) r) (step q))
    (hNext : ∀ a r, After p after (fun u => Γ u ∧ F a u) r → Judged more goal (next a r)) :
    Judged (fits ∧ more) goal ((step >>= next) q) :=
  h.seq fun a r hr => hNext a r (hq.trans hr)

theorem Judged.map {f : α → β} {step : Parse α} (h : Judged fits post (step q))
    (hp : ∀ a r, post a r → goal (f a) r) : Judged fits goal ((f <$> step) q) :=
  .of_iff (and_iff_left trivial) (Judged.seq h fun a r hr => Judged.pure (hp a r hr))

theorem judged_look {f : Parser → α} {next : α → Parse β} (h : Judged fits goal (next (f q) q)) :
    Judged fits goal ((look f >>= next) q) :=
  h

theorem judged_pure {a : α} {next : α → Parse β} (h : Judged fits goal (next a q)) :
    Judged fits goal (((Pure.pure a : Parse α) >>= next) q) :=
  h

/-! ### Tokens -/

theorem judged_advance {next : Token → Parse β} (hq : After p (w :: rest) Γ q)
    (hNext : ∀ token r, token.word = w → After p rest Γ r → Judged fits goal (next token r)) :
    Judged fits goal ((advance >>= next) q) :=
  hNext q.current q.advanced (Parser.word_of_ahead hq.ahead) hq.advance

theorem judged_expectOr {kind : TokenKind} {d : Diagnostic} {next : Token → Parse β}
    (hq : After p (w :: rest) Γ q) (hk : w.kind = kind)
    (hNext : ∀ token r, token.word = w → After p rest Γ r → Judged fits goal (next token r)) :
    Judged fits goal ((expectOr kind d >>= next) q) := by
  have hExpect : expectOr kind d q = .ok q.current q.advanced := if_pos (hq.kind_eq.trans hk)
  rw [bind_of_ok hExpect]
  exact hNext _ _ (Parser.word_of_ahead hq.ahead) hq.advance

theorem judged_expect {kind : TokenKind} {next : Token → Parse β} (hq : After p (w :: rest) Γ q)
    (hk : w.kind = kind)
    (hNext : ∀ token r, token.word = w → After p rest Γ r → Judged fits goal (next token r)) :
    Judged fits goal ((expect kind >>= next) q) :=
  judged_expectOr hq hk hNext

theorem judged_expectName {name context : String} {next : Token → Parse β}
    (hq : After p (.name name :: rest) Γ q)
    (hNext : ∀ token r, token.value = name → After p rest Γ r → Judged fits goal (next token r)) :
    Judged fits goal ((expectName context >>= next) q) :=
  judged_expectOr hq rfl fun token r hw => hNext token r (congrArg Word.text hw)

theorem judged_expectSymbol {s : Symbol} {next : Unit → Parse β}
    (hq : After p (.symbol s :: rest) Γ q)
    (hNext : ∀ r, After p rest Γ r → Judged fits goal (next () r)) :
    Judged fits goal ((expectSymbol s >>= next) q) := by
  rw [bind_of_ok (expectSymbol_of_kind hq.kind_eq)]
  exact hNext _ hq.advance

theorem judged_eat_of_ne {kind : TokenKind} {next : Bool → Parse β}
    (hq : After p (w :: rest) Γ q) (hk : w.kind ≠ kind)
    (hNext : Judged fits goal (next false q)) : Judged fits goal ((eat kind >>= next) q) := by
  have hEat : eat kind q = .ok false q := if_neg (hq.kind_eq ▸ hk)
  rwa [bind_of_ok hEat]

section Choice

variable {kind : TokenKind} {step other : Parse β}

theorem judged_ite {c : Prop} [Decidable c] (hc : c) (h : Judged fits goal (step q)) :
    Judged fits goal ((if c then step else other) q) := by
  rwa [if_pos hc]

theorem judged_ite_of_not {c : Prop} [Decidable c] (hc : ¬ c) (h : Judged fits goal (other q)) :
    Judged fits goal ((if c then step else other) q) := by
  rwa [if_neg hc]

theorem judged_ifEat (hq : After p (w :: rest) Γ q) (hk : w.kind = kind)
    (h : ∀ r, After p rest Γ r → Judged fits goal (step r)) :
    Judged fits goal ((do if ← eat kind then step else other : Parse β) q) := by
  have hEat : eat kind q = .ok true q.advanced := if_pos (hq.kind_eq.trans hk)
  rw [bind_of_ok hEat]
  exact h _ hq.advance

theorem judged_ifEat_of_ne (hq : After p (w :: rest) Γ q) (hk : w.kind ≠ kind)
    (h : Judged fits goal (other q)) :
    Judged fits goal ((do if ← eat kind then step else other : Parse β) q) :=
  judged_eat_of_ne hq hk h

theorem judged_ifAt (hq : After p (w :: rest) Γ q) (hk : w.kind = kind)
    (h : Judged fits goal (step q)) :
    Judged fits goal ((do if ← atKind kind then step else other : Parse β) q) := by
  have hAt : atKind kind q = .ok true q :=
    congrArg (Reply.ok · q) (decide_eq_true (hq.kind_eq.trans hk))
  rw [bind_of_ok hAt]
  exact h

theorem judged_ifAt_of_ne (hq : After p (w :: rest) Γ q) (hk : w.kind ≠ kind)
    (h : Judged fits goal (other q)) :
    Judged fits goal ((do if ← atKind kind then step else other : Parse β) q) := by
  have hAt : atKind kind q = .ok false q :=
    congrArg (Reply.ok · q) (decide_eq_false (hq.kind_eq ▸ hk))
  rw [bind_of_ok hAt]
  exact h

end Choice

/-! ### Nodes -/

/-- A step that adds a node, in front of others. -/
theorem judged_push {kind : NodeKind} {span : Span} {step : Parse NodeId}
    {next : NodeId → Parse β} (hq : After p rest Γ q) (hStep : step q = push kind span q)
    (hNext : ∀ id r, After p rest (fun u => Γ u ∧ Made p kind id u) r →
      Judged fits goal (next id r)) : Judged fits goal ((step >>= next) q) := by
  have hPush : step q = .ok q.tree.size { q with tree := q.tree.push ⟨kind, span⟩ } := hStep
  rw [bind_of_ok hPush]
  exact hNext _ _ (hq.push kind span)

/-- A step that adds a node, as the last one. -/
theorem judged_last {kind : NodeKind} {span : Span} {step : Parse NodeId}
    {G : NodeId → Tree → Prop} (hq : After p rest Γ q) (hStep : step q = push kind span q)
    (hNode : ∀ id u, Γ u → Made p kind id u → G id u) :
    Judged True (fun id r => After p rest (G id) r) (step q) := by
  rw [hStep]
  exact ⟨trivial, (hq.push kind span).imp fun u hu => hNode _ u hu.1 hu.2⟩

/-! ### Levels -/

theorem nested_of_fail {step : Parse α} {d : Diagnostic} (hp : p.nesting < maxNesting)
    (h : step { p with nesting := p.nesting + 1 } = .fail d q) :
    nested step p = .fail d { q with nesting := q.nesting - 1 } := by
  have hEnter : enter p = .ok () { p with nesting := p.nesting + 1 } :=
    if_neg (Nat.not_le_of_lt hp)
  refine (bind_of_ok hEnter _).trans ?_
  simp only [h]
  rfl

/-- A step one level deeper. -/
theorem judged_nested {F : α → Tree → Prop} {n : Nat} {step : Parse α} (hp : Roomy (n + 1) p)
    (h : Judged fits (fun a r => After { p with nesting := p.nesting + 1 } rest (F a) r)
      (step { p with nesting := p.nesting + 1 })) :
    Judged fits (fun a r => After p rest (F a) r) (nested step p) := by
  have hLevels := hp.levels
  cases hr : step { p with nesting := p.nesting + 1 } with
  | ok a r =>
    rw [hr] at h
    obtain ⟨hf, hAfter⟩ := h
    rw [nested_of_ok (by omega) hr]
    have hProper := hAfter.proper
    refine ⟨hf, { hAfter with proper := ⟨hProper.grammar, hProper.ends⟩, nesting := ?_ }⟩
    simp [hAfter.nesting]
  | fail d r =>
    rw [hr] at h
    rw [nested_of_fail (by omega) hr]
    exact h

end Steps

end Parse

end StageScript

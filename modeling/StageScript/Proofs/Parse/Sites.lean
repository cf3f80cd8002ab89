import Mathlib
import StageScript.Proofs.Check.Rules
import StageScript.Proofs.Spans

/-!
# Where nodes start and steps fail

A parser that reads the tokens of a source fails in few ways (`Fault`): at a token where another
one is wanted, at a token that opens one level too many, or where a name is declared for the second
time.  What it fails at is a token, or the start of a node that it has made.  So the rules are
followed with an eye on where nodes start (`Steady`): with a token, or with the source.  Nodes
that the checks speak of start with a name, a return or a break, and no two of them with the same.

`Goes o step p` says that a step at `p` comes from `o` to a parser where all of this holds, or
fails with one of these faults.  Most rules do, wherever they start: `Keeps` is a class, so that it
is found by following the steps of a rule.  What a step gives is of use to the next one if it is
fair (`Fair`): a token of the source, a position where a node can start, a fault, a kind of node
that no check speaks of.
-/

set_option synthInstance.maxSize 4000

namespace StageScript

inductive Wanted : String → Prop
  | kind (kind : TokenKind) : Wanted s!"expected {kind.name}"
  | name (context : String) : Wanted s!"expected identifier {context}"
  | expression : Wanted "expected an expression"
  | statement : Wanted "expected a statement"
  | caseValue : Wanted "expected at least one case value"
  | update : Wanted "expected assignment or call"

/-- Where a node of a script can start: with a token, or with the source. -/
def Site (ts : Array Token) (file : String) (position : Position) : Prop :=
  (∃ token ∈ ts, position = token.span.start) ∨ position = ⟨0, file⟩

/-- The faults of parsing, and all faults of the tree. -/
inductive Fault (ts : Array Token) (file : String) : Diagnostic → Prop
  | fatal {d : Diagnostic} : d.isFatal = true → Fault ts file d
  | unwanted {token : Token} {reason : String} : token ∈ ts → Wanted reason →
      Fault ts file ⟨.unexpectedBecause token.value reason, token.span.start⟩
  | tooDeep {token : Token} : token ∈ ts →
      Fault ts file ⟨.nestingTooDeep maxNesting, token.span.start⟩
  | declared {name : String} {position : Position} : Site ts file position →
      Fault ts file ⟨.alreadyDeclared name, position⟩

/-- A token that a node starts with of which the checks speak. -/
def TokenKind.Opener (kind : TokenKind) : Prop :=
  kind = .identifier ∨ kind = .keyword .returnWord ∨ kind = .keyword .breakWord

namespace Parser

/-- The parser reads the tokens, and its nodes start where nodes can start. -/
structure Sited (ts : Array Token) (file : String) (p : Parser) : Prop where
  tokens : p.tokens = ts
  source : p.file = file
  proper : p.Proper
  starts : ∀ {id : NodeId} {node : Node}, p.tree.get? id = some node → Site ts file node.span.start

def Made (p q : Parser) (id : NodeId) (node : Node) : Prop :=
  p.tree.size ≤ id ∧ q.tree.get? id = some node

end Parser

/-- The nodes of which the checks speak that are made between `p` and `q` start with tokens that are
read between them, each with another one: the node `id` with the token of number `place id`. -/
structure Opened (ts : Array Token) (p q : Parser) (place : NodeId → Nat) : Prop where
  token : ∀ {id : NodeId} {node : Node}, p.Made q id node → node.kind.isRuled = true →
    ∃ token, p.pos ≤ place id ∧ place id < q.pos ∧ ts[place id]? = some token ∧
      token.kind.Opener ∧ node.span.start = token.span.start
  injective : ∀ {i j : NodeId} {a b : Node}, p.Made q i a → p.Made q j b →
    a.kind.isRuled = true → b.kind.isRuled = true → place i = place j → i = j

/-- From `p`, a parser comes to `q` and makes nodes that start where nodes can start. -/
structure Steady (ts : Array Token) (file : String) (p q : Parser) : Prop where
  tokens : q.tokens = p.tokens
  source : q.file = p.file
  grammar : q.knowsGrammar = p.knowsGrammar
  tree : p.tree.Extends q.tree
  pos_le : p.pos ≤ q.pos
  starts : ∀ {id : NodeId} {node : Node}, p.Made q id node → Site ts file node.span.start
  opened : ∃ place, Opened ts p q place

section Steady

variable {ts : Array Token} {file : String} {p q r : Parser}

theorem Parser.Sited.mem_tokens (h : p.Sited ts file) : p.current ∈ ts := by
  obtain ⟨before, last, hTokens, -⟩ := h.proper.ends
  have hSize : p.tokens.size = before.length + 1 := by
    rw [← Array.length_toList, hTokens, List.length_append, List.length_singleton]
  have hInside : min p.pos (p.tokens.size - 1) < p.tokens.size := by omega
  rw [Parser.current, Array.getElem?_eq_getElem hInside, Option.getD_some, ← h.tokens]
  exact Array.getElem_mem _

theorem Parser.Sited.position (h : p.Sited ts file) : Site ts file p.position :=
  Or.inl ⟨p.current, h.mem_tokens, rfl⟩

theorem Parser.Made.cases (h : q.tree.Extends r.tree) {id : NodeId} {node : Node}
    (hm : p.Made r id node) : p.Made q id node ∨ q.Made r id node := by
  rcases Nat.lt_or_ge id q.tree.size with hLess | hLarge
  · left
    refine ⟨hm.1, ?_⟩
    have hOld : q.tree.get? id = some q.tree.nodes[id] := Array.getElem?_eq_getElem hLess
    rw [hOld, ← hm.2, h.get? hOld]
  · exact Or.inr ⟨hLarge, hm.2⟩

theorem Parser.Sited.of_steady (h : p.Sited ts file) (hs : Steady ts file p q) :
    q.Sited ts file where
  tokens := hs.tokens.trans h.tokens
  source := hs.source.trans h.source
  proper := ⟨hs.grammar.trans h.proper.grammar, hs.tokens ▸ h.proper.ends⟩
  starts {id node} hNode := by
    rcases Nat.lt_or_ge id p.tree.size with hLess | hLarge
    · have hOld : p.tree.get? id = some p.tree.nodes[id] := Array.getElem?_eq_getElem hLess
      cases (hs.tree.get? hOld).symm.trans hNode
      exact h.starts hOld
    · exact hs.starts ⟨hLarge, hNode⟩

namespace Steady

/-- Nothing is made where the nodes stay as they are. -/
theorem of_nodes_eq (hTokens : q.tokens = p.tokens) (hFile : q.file = p.file)
    (hGrammar : q.knowsGrammar = p.knowsGrammar) (hNodes : q.tree.nodes = p.tree.nodes)
    (hPos : p.pos ≤ q.pos) : Steady ts file p q := by
  have hNone : ∀ {id node}, ¬ p.Made q id node := by
    rintro id node ⟨hLarge, hNode⟩
    rw [Tree.get?, hNodes] at hNode
    have hLess : id < p.tree.size := (Array.getElem?_eq_some_iff.mp hNode).1
    exact absurd hLess (Nat.not_lt_of_le hLarge)
  have hTree : p.tree.Extends q.tree := by
    rw [Tree.Extends, hNodes]
  exact ⟨hTokens, hFile, hGrammar, hTree, hPos, fun h => absurd h hNone,
    id, fun h => absurd h hNone, fun h => absurd h hNone⟩

theorem refl (p : Parser) : Steady ts file p p := of_nodes_eq rfl rfl rfl rfl (Nat.le_refl _)

theorem advance (p : Parser) : Steady ts file p p.advanced :=
  of_nodes_eq rfl rfl rfl rfl (Nat.le_succ _)

theorem trans (h : Steady ts file p q) (g : Steady ts file q r) : Steady ts file p r := by
  refine ⟨g.tokens.trans h.tokens, g.source.trans h.source, g.grammar.trans h.grammar,
    h.tree.trans g.tree, h.pos_le.trans g.pos_le, ?_, ?_⟩
  · intro id node hm
    rcases hm.cases g.tree with hm | hm
    · exact h.starts hm
    · exact g.starts hm
  -- what is made first starts with tokens before `q`, and what is made then with later ones
  obtain ⟨first, hFirst⟩ := h.opened
  obtain ⟨later, hLater⟩ := g.opened
  have hOld : ∀ {id node}, p.Made q id node → id < q.tree.size := fun hm =>
    (Array.getElem?_eq_some_iff.mp hm.2).1
  have hNew : ∀ {id node}, q.Made r id node → ¬ id < q.tree.size := fun hm =>
    Nat.not_lt_of_le hm.1
  refine ⟨fun id => if id < q.tree.size then first id else later id, ?_, ?_⟩
  · intro id node hm hr
    rcases hm.cases g.tree with hm | hm
    · obtain ⟨token, hLow, hHigh, hToken⟩ := hFirst.token hm hr
      simp only [hOld hm, if_true]
      exact ⟨token, hLow, hHigh.trans_le g.pos_le, hToken⟩
    · obtain ⟨token, hLow, hHigh, hToken⟩ := hLater.token hm hr
      simp only [hNew hm, if_false]
      exact ⟨token, h.pos_le.trans hLow, hHigh, hToken⟩
  · intro i j a b hi hj ha hb hEq
    rcases hi.cases g.tree with hi | hi <;> rcases hj.cases g.tree with hj | hj
    · simp only [hOld hi, hOld hj, if_true] at hEq
      exact hFirst.injective hi hj ha hb hEq
    · simp only [hOld hi, hNew hj, if_true, if_false] at hEq
      obtain ⟨-, -, hHigh, -⟩ := hFirst.token hi ha
      obtain ⟨-, hLow, -⟩ := hLater.token hj hb
      omega
    · simp only [hNew hi, hOld hj, if_true, if_false] at hEq
      obtain ⟨-, hLow, -⟩ := hLater.token hi ha
      obtain ⟨-, -, hHigh, -⟩ := hFirst.token hj hb
      omega
    · simp only [hNew hi, hNew hj, if_false] at hEq
      exact hLater.injective hi hj ha hb hEq

theorem made_push {node made : Node} {id : NodeId}
    (h : p.Made { p with tree := p.tree.push node } id made) : id = p.tree.size ∧ made = node := by
  obtain ⟨hLarge, hMade⟩ := h
  have hLess : id < (p.tree.push node).size := (Array.getElem?_eq_some_iff.mp hMade).1
  rw [Tree.size_push] at hLess
  obtain rfl : id = p.tree.size := Nat.le_antisymm (Nat.le_of_lt_succ hLess) hLarge
  refine ⟨rfl, ?_⟩
  rw [Tree.get?, Tree.push, Tree.size, Array.getElem?_push_size] at hMade
  exact (Option.some.inj hMade).symm

theorem push {kind : NodeKind} {span : Span} (hKind : kind.isRuled = false)
    (hSpan : Site ts file span.start) :
    Steady ts file p { p with tree := p.tree.push ⟨kind, span⟩ } := by
  refine ⟨rfl, rfl, rfl, .push _ _, Nat.le_refl _, ?_, id, ?_, ?_⟩
  · intro id node hm
    obtain ⟨-, rfl⟩ := made_push hm
    exact hSpan
  · intro id node hm hr
    obtain ⟨-, rfl⟩ := made_push hm
    rw [hKind] at hr
    cases hr
  · intro i j a b hi hj _ _ _
    rw [(made_push hi).1, (made_push hj).1]

/-- A node that the checks speak of, made after a token that no other node of its sort starts
with. -/
theorem opens {kind : NodeKind} {span : Span} (hp : p.Sited ts file) (hOpener : p.kind.Opener)
    (h : Steady ts file p.advanced q) (hSpan : span.start = p.position) :
    Steady ts file p { q with tree := q.tree.push ⟨kind, span⟩ } := by
  have hKind : p.kind ≠ .eof := by
    rintro hk
    rw [hk] at hOpener
    rcases hOpener with h | h | h <;> cases h
  have hInside : p.pos + 1 < p.tokens.size := Parse.inside_advanced hp.proper hKind
  have hToken : ts[p.pos]? = some p.current := by
    rw [← hp.tokens]
    exact Parser.getElem?_pos (by omega)
  have hCases : ∀ {id node},
      p.Made { q with tree := q.tree.push ⟨kind, span⟩ } id node →
      p.advanced.Made q id node ∨ id = q.tree.size ∧ node = ⟨kind, span⟩ := by
    intro id node hm
    rcases hm.cases (Tree.Extends.push q.tree ⟨kind, span⟩) with hm | hm
    · exact Or.inl hm
    · exact Or.inr (made_push hm)
  have hPos : p.pos + 1 ≤ q.pos := h.pos_le
  refine ⟨h.tokens, h.source, h.grammar, h.tree.trans (.push _ _),
    (Nat.le_succ _).trans hPos, ?_, ?_⟩
  · intro id node hm
    rcases hCases hm with hm | ⟨-, rfl⟩
    · exact h.starts hm
    · rw [hSpan]
      exact hp.position
  -- the tokens of the nodes inside come behind the one that opens this node
  obtain ⟨place, hPlace⟩ := h.opened
  have hOld : ∀ {id node}, p.advanced.Made q id node → id ≠ q.tree.size := fun hm =>
    (Array.getElem?_eq_some_iff.mp hm.2).1.ne
  have hApart : ∀ {id node}, p.advanced.Made q id node → node.kind.isRuled = true →
      p.pos ≠ place id := by
    intro id node hm hr
    obtain ⟨-, hLow, -⟩ := hPlace.token hm hr
    exact Nat.ne_of_lt hLow
  refine ⟨fun id => if id = q.tree.size then p.pos else place id, ?_, ?_⟩
  · intro id node hm hr
    rcases hCases hm with hm | ⟨rfl, rfl⟩
    · obtain ⟨token, hLow, hHigh, hMore⟩ := hPlace.token hm hr
      simp only [hOld hm, if_false]
      exact ⟨token, (Nat.le_succ _).trans hLow, hHigh, hMore⟩
    · simp only [if_true]
      exact ⟨p.current, Nat.le_refl _, hPos, hToken, hOpener, hSpan⟩
  · intro i j a b hi hj ha hb hEq
    rcases hCases hi with hi | ⟨rfl, rfl⟩ <;> rcases hCases hj with hj | ⟨rfl, rfl⟩
    · simp only [hOld hi, hOld hj, if_false] at hEq
      exact hPlace.injective hi hj ha hb hEq
    · simp only [hOld hi, if_true, if_false] at hEq
      exact absurd hEq.symm (hApart hi ha)
    · simp only [hOld hj, if_true, if_false] at hEq
      exact absurd hEq (hApart hj hb)
    · rfl

end Steady

end Steady

namespace Parse

/-! ### What steps give -/

class Fair (α : Type) where
  fair : Array Token → String → α → Prop

instance fairToken : Fair Token := ⟨fun ts _ token => token ∈ ts⟩

instance fairPosition : Fair Position := ⟨Site⟩

instance fairSpan : Fair Span := ⟨fun ts file span => Site ts file span.start⟩

instance fairNode : Fair Node := ⟨fun ts file node => Site ts file node.span.start⟩

instance fairDiagnostic : Fair Diagnostic := ⟨Fault⟩

instance fairKind : Fair NodeKind := ⟨fun _ _ kind => kind.isRuled = false⟩

instance (priority := low) fairAny {α : Type} : Fair α := ⟨fun _ _ _ => True⟩

class Known (Γ P : Prop) : Prop where
  imp : Γ → P

class Shown (ts : Array Token) (file : String) (Γ : Prop) {α : Type} [Fair α] (f : Parser → α) :
    Prop where
  fair : Γ → ∀ p : Parser, p.Sited ts file → Fair.fair ts file (f p)

class Unruled (ruled : Bool) : Prop where
  eq_false : ruled = false

instance unruled_false : Unruled false := ⟨rfl⟩

instance unruled_headerKind (text : List Char) : Unruled (headerKind text).isRuled := ⟨rfl⟩

section Fairness

variable {ts : Array Token} {file : String} {Γ P Q : Prop} {α : Type}

instance known_last : Known (Γ ∧ P) P := ⟨And.right⟩

instance known_before [h : Known Γ P] : Known (Γ ∧ Q) P := ⟨fun hk => h.imp hk.1⟩

instance known_any (a : α) : Known Γ (@Fair.fair α fairAny ts file a) := ⟨fun _ => trivial⟩

instance known_start (span : Span) [h : Known Γ (Fair.fair ts file span)] :
    Known Γ (Fair.fair ts file span.start) :=
  ⟨h.imp⟩

instance known_span (token : Token) [h : Known Γ (Fair.fair ts file token)] :
    Known Γ (Fair.fair ts file token.span) :=
  ⟨fun hk => Or.inl ⟨token, h.imp hk, rfl⟩⟩

instance known_kind (kind : NodeKind) [h : Unruled kind.isRuled] :
    Known Γ (Fair.fair ts file kind) :=
  ⟨fun _ => h.eq_false⟩

instance shown_any (f : Parser → α) : @Shown ts file Γ α fairAny f :=
  @Shown.mk _ _ _ _ fairAny _ fun _ _ _ => trivial

instance shown_position : Shown ts file Γ Parser.position := ⟨fun _ _ hp => hp.position⟩

instance shown_origin : Shown ts file Γ fun p => (⟨0, p.file⟩ : Position) :=
  ⟨fun _ _ hp => Or.inr (by rw [hp.source])⟩

instance shown_spanFrom (start : Position) [h : Known Γ (Fair.fair ts file start)] :
    Shown ts file Γ fun p => p.spanFrom start :=
  ⟨fun hk _ _ => h.imp hk⟩

instance shown_spanBetween (left right : NodeId) :
    Shown ts file Γ fun p => p.spanBetween left right := by
  refine ⟨fun _ p hp => ?_⟩
  show Site ts file (p.spanBetween left right).start
  rw [Parser.spanBetween]
  split
  · exact hp.starts ‹_›
  · exact hp.position

theorem shown_complaint {reason : String} (h : Wanted reason) :
    Shown ts file Γ fun p => p.complaint reason :=
  ⟨fun _ _ hp => .unwanted hp.mem_tokens h⟩

end Fairness

/-! ### Steps -/

/-- At `p`, the step comes from `o` to a parser with steady nodes, or to a fault. -/
structure Goes (ts : Array Token) (file : String) {α : Type} [Fair α] (o : Parser) (step : Parse α)
    (p : Parser) : Prop where
  ok : ∀ {a : α} {q : Parser}, step p = .ok a q → Steady ts file o q ∧ Fair.fair ts file a
  fail : ∀ {d : Diagnostic} {q : Parser}, step p = .fail d q → Fault ts file d

class Keeps (ts : Array Token) (file : String) (Γ : Prop) {α : Type} [Fair α] (step : Parse α) :
    Prop where
  goes : Γ → ∀ p : Parser, p.Sited ts file → Goes ts file p step p

section Goes

variable {ts : Array Token} {file : String} {α β : Type} [Fair α] [Fair β] {o m p q : Parser}

theorem Goes.of_ok {step : Parse α} {a : α} (h : step p = .ok a q) (hs : Steady ts file o q)
    (ha : Fair.fair ts file a) : Goes ts file o step p := by
  refine ⟨fun hOk => ?_, fun hFail => ?_⟩
  · cases h.symm.trans hOk
    exact ⟨hs, ha⟩
  · cases h.symm.trans hFail

theorem Goes.of_fail {step : Parse α} {d : Diagnostic} (h : step p = .fail d q)
    (hd : Fault ts file d) : Goes ts file o step p := by
  refine ⟨fun hOk => ?_, fun hFail => ?_⟩
  · cases h.symm.trans hOk
  · cases h.symm.trans hFail
    exact hd

/-- A step, and then others that know what it did. -/
theorem Goes.bind {step : Parse α} {next : α → Parse β} (h : Goes ts file m step p)
    (hn : ∀ a q, step p = .ok a q → Steady ts file m q → Fair.fair ts file a →
      Goes ts file o (next a) q) : Goes ts file o (step >>= next) p := by
  cases hStep : step p with
  | ok a q =>
    obtain ⟨hSteady, hFair⟩ := h.ok hStep
    have hNext := hn a q hStep hSteady hFair
    have hRun : (step >>= next) p = next a q := bind_of_ok hStep _
    exact ⟨fun hOk => hNext.ok (hRun.symm.trans hOk), fun hFail => hNext.fail (hRun.symm.trans hFail)⟩
  | fail d q => exact .of_fail (bind_of_fail hStep _) (h.fail hStep)

/-- What follows a look at the parser knows what is seen. -/
theorem Goes.look {γ : Type} {f : Parser → γ} {next : γ → Parse α}
    (h : Goes ts file o (next (f p)) p) : Goes ts file o (look f >>= next) p :=
  ⟨h.ok, h.fail⟩

/-- A step from the first token on: it is a step behind the token. -/
theorem Goes.first {next : Token → Parse α} (h : Goes ts file o (next p.current) p.advanced) :
    Goes ts file o (advance >>= next) p :=
  ⟨h.ok, h.fail⟩

theorem Goes.after {step : Parse α} (h : Steady ts file o p)
    (g : Goes ts file p step p) : Goes ts file o step p :=
  ⟨fun hOk => ⟨h.trans (g.ok hOk).1, (g.ok hOk).2⟩, g.fail⟩

/-- A step that goes on from wherever it starts, on the way from `m`. -/
theorem Goes.along {step : Parse α} {next : α → Parse β}
    [hs : Keeps ts file True step] (hm : m.Sited ts file) (hp : Steady ts file m p)
    (hn : ∀ a q, Steady ts file m q → Fair.fair ts file a → Goes ts file o (next a) q) :
    Goes ts file o (step >>= next) p :=
  ((hs.goes trivial p (hm.of_steady hp)).after hp).bind fun a q _ => hn a q

end Goes

section Steps

variable {ts : Array Token} {file : String} {Γ : Prop} {α β : Type} [Fair α] [Fair β]

instance keeps_bind (step : Parse α) (next : α → Parse β)
    [hs : Keeps ts file Γ step] [hn : ∀ a, Keeps ts file (Γ ∧ Fair.fair ts file a) (next a)] :
    Keeps ts file Γ (step >>= next) :=
  ⟨fun hk p hp => (hs.goes hk p hp).bind fun a q _ hq hFair =>
    ((hn a).goes ⟨hk, hFair⟩ q (hp.of_steady hq)).after hq⟩

instance keeps_pure (a : α) [h : Known Γ (Fair.fair ts file a)] : Keeps ts file Γ (pure a) where
  goes hk p _ := .of_ok rfl (.refl p) (h.imp hk)

instance keeps_map (f : α → β) (step : Parse α) [Keeps ts file Γ step]
    [∀ a, Known (Γ ∧ Fair.fair ts file a) (Fair.fair ts file (f a))] :
    Keeps ts file Γ (f <$> step) :=
  keeps_bind step fun a => pure (f a)

instance keeps_ite {c : Prop} [Decidable c] (step other : Parse α) [Keeps ts file Γ step]
    [Keeps ts file Γ other] : Keeps ts file Γ (if c then step else other) := by
  split <;> infer_instance

instance keeps_fail (d : Diagnostic) [h : Known Γ (Fair.fair ts file d)] :
    Keeps ts file Γ (fail d : Parse α) where
  goes hk _ _ := .of_fail rfl (h.imp hk)

instance keeps_look (f : Parser → α) [h : Shown ts file Γ f] : Keeps ts file Γ (look f) where
  goes hk p hp := .of_ok rfl (.refl p) (h.fair hk p hp)

theorem keeps_unexpected {reason : String} (h : Wanted reason) :
    Keeps ts file Γ (unexpected reason : Parse α) where
  goes _ _ hp := .of_fail rfl (.unwanted hp.mem_tokens h)

instance keeps_caseValue :
    Keeps ts file Γ (unexpected "expected at least one case value" : Parse α) :=
  keeps_unexpected .caseValue

instance keeps_tooDeep : Keeps ts file Γ (tooDeep : Parse α) where
  goes _ _ hp := .of_fail rfl (.tooDeep hp.mem_tokens)

/-! ### Tokens, levels and scopes -/

instance keeps_advance : Keeps ts file Γ advance where
  goes _ p hp := .of_ok rfl (.advance p) hp.mem_tokens

instance keeps_atKind (kind : TokenKind) : Keeps ts file Γ (atKind kind) := keeps_look _

instance keeps_atSymbol (s : Symbol) : Keeps ts file Γ (atSymbol s) := keeps_look _

instance keeps_expectOr (kind : TokenKind) (d : Diagnostic)
    [hd : Known Γ (Fair.fair ts file d)] : Keeps ts file Γ (expectOr kind d) where
  goes hk p hp := by
    by_cases hKind : p.kind = kind
    · exact .of_ok (if_pos hKind) (.advance p) hp.mem_tokens
    · exact .of_fail (if_neg hKind) (hd.imp hk)

instance keeps_eat (kind : TokenKind) : Keeps ts file Γ (eat kind) where
  goes _ p _ := by
    by_cases hKind : p.kind = kind
    · exact .of_ok (if_pos hKind) (.advance p) trivial
    · exact .of_ok (if_neg hKind) (.refl p) trivial

instance keeps_enter : Keeps ts file Γ enter where
  goes _ p hp := by
    by_cases hDeep : maxNesting ≤ p.nesting
    · exact .of_fail (if_pos hDeep) (.tooDeep hp.mem_tokens)
    · exact .of_ok (if_neg hDeep) (.of_nodes_eq rfl rfl rfl rfl (Nat.le_refl _)) trivial

/-- A change that leaves tokens and nodes alone. -/
theorem keeps_change {f : Parser → Parser} (hTokens : ∀ p, (f p).tokens = p.tokens)
    (hFile : ∀ p, (f p).file = p.file) (hGrammar : ∀ p, (f p).knowsGrammar = p.knowsGrammar)
    (hNodes : ∀ p, (f p).tree.nodes = p.tree.nodes) (hPos : ∀ p, (f p).pos = p.pos) :
    Keeps ts file Γ (change f) where
  goes _ p _ := .of_ok rfl
    (.of_nodes_eq (hTokens p) (hFile p) (hGrammar p) (hNodes p) (hPos p).ge) trivial

instance keeps_leave : Keeps ts file Γ leave :=
  keeps_change (fun _ => rfl) (fun _ => rfl) (fun _ => rfl) (fun _ => rfl) fun _ => rfl

instance keeps_pushScope : Keeps ts file Γ pushScope :=
  keeps_change (fun _ => rfl) (fun _ => rfl) (fun _ => rfl) (fun _ => rfl) fun _ => rfl

instance keeps_popScope : Keeps ts file Γ popScope where
  goes _ p _ := by
    cases hOuter : p.outer with
    | nil =>
      have hPop : popScope p = .ok p.table { p with table := NameTable.empty } := by
        rw [popScope, hOuter]
      exact .of_ok hPop (.of_nodes_eq rfl rfl rfl rfl (Nat.le_refl _)) trivial
    | cons table outer =>
      exact .of_ok (popScope_of_outer hOuter) (.of_nodes_eq rfl rfl rfl rfl (Nat.le_refl _)) trivial

instance keeps_expect (kind : TokenKind) : Keeps ts file Γ (expect kind) := by
  have hShown : Shown ts file Γ fun p => p.complaint s!"expected {kind.name}" :=
    shown_complaint (.kind kind)
  unfold expect
  infer_instance

instance keeps_expectSymbol (s : Symbol) : Keeps ts file Γ (expectSymbol s) := by
  unfold expectSymbol
  infer_instance

instance keeps_expectName (context : String) : Keeps ts file Γ (expectName context) := by
  have hShown : Shown ts file Γ fun p => p.complaint s!"expected identifier {context}" :=
    shown_complaint (.name context)
  unfold expectName
  infer_instance

instance keeps_nested (step : Parse α) [hs : Keeps ts file Γ step] :
    Keeps ts file Γ (nested step) := by
  refine ⟨fun hk p hp => ?_⟩
  have hEnter : Keeps ts file Γ enter := keeps_enter
  refine (hEnter.goes hk p hp).bind fun _ m _ hm _ => ?_
  have hGoes := hs.goes hk m (hp.of_steady hm)
  cases hRun : step m with
  | ok a q =>
    obtain ⟨hSteady, hFair⟩ := hGoes.ok hRun
    refine .of_ok (q := { q with nesting := q.nesting - 1 }) ?_
      ((hm.trans hSteady).trans (.of_nodes_eq rfl rfl rfl rfl (Nat.le_refl _))) hFair
    rw [hRun]
    rfl
  | fail d q =>
    refine .of_fail (q := { q with nesting := q.nesting - 1 }) ?_ (hGoes.fail hRun)
    rw [hRun]
    rfl

/-! ### Nodes and declarations -/

instance keeps_push (kind : NodeKind) (span : Span) [hKind : Known Γ (Fair.fair ts file kind)]
    [hSpan : Known Γ (Fair.fair ts file span)] : Keeps ts file Γ (push kind span) where
  goes hk _ _ := .of_ok rfl (.push (hKind.imp hk) (hSpan.imp hk)) trivial

instance keeps_pushFrom (start : Position) (kind : NodeKind)
    [Known Γ (Fair.fair ts file kind)] [Known Γ (Fair.fair ts file start)] :
    Keeps ts file Γ (pushFrom start kind) := by
  unfold pushFrom
  infer_instance

instance keeps_bindName (name : String) (id : NodeId) (position : Position)
    [h : Known Γ (Fair.fair ts file position)] : Keeps ts file Γ (bindName name id position) where
  goes hk p _ := by
    cases hTable : p.table.declare? name id with
    | some table =>
      have hRun : bindName name id position p = .ok id { p with table } := by
        rw [bindName, hTable]
      exact .of_ok hRun (.of_nodes_eq rfl rfl rfl rfl (Nat.le_refl _)) trivial
    | none =>
      have hRun : bindName name id position p = .fail ⟨.alreadyDeclared name, position⟩ p := by
        rw [bindName, hTable]
      exact .of_fail hRun (.declared (h.imp hk))

instance keeps_declare (d : Definition) (span : Span) [Known Γ (Fair.fair ts file span)] :
    Keeps ts file Γ (declare d span) := by
  unfold declare
  infer_instance

theorem definition_fatal {t : Tree} {id : NodeId} {d : Diagnostic}
    (h : t.definition id = .error d) : d.isFatal = true := by
  simp only [Tree.definition, Tree.node] at h
  cases hNode : t.get? id with
  | none =>
    rw [hNode] at h
    cases h
    rfl
  | some node =>
    rw [hNode] at h
    cases hk : node.kind with
    | definition e =>
      simp only [bind, Except.bind, hk] at h
      cases h
    | _ =>
      simp only [bind, Except.bind, hk] at h
      cases h
      rfl

instance keeps_lookupNode (id : NodeId) : Keeps ts file Γ (lookup (·.node id)) where
  goes _ p hp := by
    cases hNode : p.tree.get? id with
    | some node =>
      have hRun : lookup (·.node id) p = .ok node p := by simp [lookup, Tree.node, hNode]
      exact .of_ok hRun (.refl p) (hp.starts hNode)
    | none =>
      have hRun : lookup (·.node id) p = .fail (Tree.missingNode id) p := by
        simp [lookup, Tree.node, hNode]
      exact .of_fail hRun (.fatal rfl)

instance keeps_lookupDefinition (id : NodeId) : Keeps ts file Γ (lookup (·.definition id)) where
  goes _ p _ := by
    cases hFound : p.tree.definition id with
    | ok d =>
      have hRun : lookup (·.definition id) p = .ok d p := by simp [lookup, hFound]
      exact .of_ok hRun (.refl p) trivial
    | error d =>
      have hRun : lookup (·.definition id) p = .fail d p := by simp [lookup, hFound]
      exact .of_fail hRun (.fatal (definition_fatal hFound))

instance keeps_declareExisting (id : NodeId) : Keeps ts file Γ (declareExisting id) := by
  unfold declareExisting
  infer_instance

theorem keeps_forM {ι : Type} {step : ι → Parse Unit} (h : ∀ i, Keeps ts file Γ (step i))
    (is : List ι) : Keeps ts file Γ (is.forM step) := by
  induction is with
  | nil => exact keeps_pure ()
  | cons i is ih =>
    have hRest : ∀ a : Unit, Keeps ts file (Γ ∧ Fair.fair ts file a) (is.forM step) :=
      fun _ => ⟨fun hk => ih.goes hk.1⟩
    exact keeps_bind (step i) fun _ => is.forM step

theorem keeps_commaItems (close : TokenKind) (item : Parse NodeId)
    [∀ Γ, Keeps ts file Γ item] (n : Nat) (Γ : Prop) :
    Keeps ts file Γ (commaItems close item n) := by
  induction n generalizing Γ with
  | zero => exact keeps_pure []
  | succ n ih =>
    unfold commaItems
    infer_instance

instance keeps_commaList (close : Symbol) (item : Parse NodeId) [∀ Γ, Keeps ts file Γ item] :
    Keeps ts file Γ (commaList close item) := by
  have hItems : ∀ n Γ, Keeps ts file Γ (commaItems (.symbol close) item n) :=
    keeps_commaItems _ item
  unfold commaList
  infer_instance

instance keeps_callArgs (expr : ExprParser) [∀ Γ power, Keeps ts file Γ (expr power)] :
    Keeps ts file Γ (callArgs expr) := by
  unfold callArgs
  infer_instance

end Steps

end Parse

end StageScript

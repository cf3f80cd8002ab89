import StageScript.Proofs.Parse.Expr
import StageScript.Proofs.Parse.Runs

/-!
# Where nodes lie

A node that is made while the parser goes from the token `i` to the token `j` reaches from the
start of one token to the end of another one between them (`Tree.Covers`).  Its parts were made
one after the other on the way, so that they lie in a row: each of them ends before the next one
starts (`Tree.Laid`).  Parentheses around an operand belong to none of the nodes, so there may be
gaps in the row.

The rules are followed by `Neat`: from tokens `lo` on, nodes `ids` lie in a row up to the current
token (`Since`).  A step adds its nodes to the row (`Lays`), and a new node takes its parts from
the row and puts itself in their place.
-/

set_option synthInstance.maxSize 4000

namespace StageScript

namespace Tree

def span? (t : Tree) (id : NodeId) : Option Span := (t.get? id).map Node.span

/-- The node reaches from the start of token `i` to the end of the last token before `j`. -/
structure Covers (t : Tree) (ts : Array Token) (id : NodeId) (i j : Nat) : Prop where
  lt : i < j
  inside : j < ts.size
  span : ∃ first last, ts[i]? = some first ∧ ts[j - 1]? = some last ∧
    t.span? id = some ⟨first.span.start, last.span.stop⟩

/-- The nodes lie in a row, from token `lo` on and before token `hi`. -/
def Laid (t : Tree) (ts : Array Token) (hi : Nat) : Nat → List NodeId → Prop
  | lo, [] => lo ≤ hi
  | lo, id :: ids => ∃ i j, lo ≤ i ∧ t.Covers ts id i j ∧ Laid t ts hi j ids

def Tidy (t : Tree) (ts : Array Token) (id : NodeId) : Prop :=
  ∃ i j k, t.Covers ts id i j ∧ t.kind? id = some k ∧ t.Laid ts j i k.children

variable {t u : Tree} {ts : Array Token} {id : NodeId} {ids : List NodeId} {lo hi i j : Nat}

theorem Extends.span? (h : t.Extends u) {s : Span} (hs : t.span? id = some s) :
    u.span? id = some s := by
  obtain ⟨node, hNode, rfl⟩ := Option.map_eq_some_iff.mp hs
  exact Option.map_eq_some_iff.mpr ⟨node, h.get? hNode, rfl⟩

theorem Covers.grow (h : t.Covers ts id i j) (g : t.Extends u) : u.Covers ts id i j := by
  obtain ⟨first, last, hFirst, hLast, hSpan⟩ := h.span
  exact ⟨h.lt, h.inside, first, last, hFirst, hLast, g.span? hSpan⟩

namespace Laid

theorem le (h : t.Laid ts hi lo ids) : lo ≤ hi := by
  induction ids generalizing lo with
  | nil => exact h
  | cons id ids ih =>
    obtain ⟨i, j, hi, hCovers, hRest⟩ := h
    have hLess := hCovers.lt
    have hRest := ih hRest
    omega

theorem lower {lower : Nat} (h : t.Laid ts hi lo ids) (hl : lower ≤ lo) :
    t.Laid ts hi lower ids := by
  cases ids with
  | nil => exact hl.trans h
  | cons id ids =>
    obtain ⟨i, j, hi, hCovers, hRest⟩ := h
    exact ⟨i, j, hl.trans hi, hCovers, hRest⟩

theorem raise {higher : Nat} (h : t.Laid ts hi lo ids) (hh : hi ≤ higher) :
    t.Laid ts higher lo ids := by
  induction ids generalizing lo with
  | nil => exact h.trans hh
  | cons id ids ih =>
    obtain ⟨i, j, hi, hCovers, hRest⟩ := h
    exact ⟨i, j, hi, hCovers, ih hRest⟩

theorem grow (h : t.Laid ts hi lo ids) (g : t.Extends u) : u.Laid ts hi lo ids := by
  induction ids generalizing lo with
  | nil => exact h
  | cons id ids ih =>
    obtain ⟨i, j, hi, hCovers, hRest⟩ := h
    exact ⟨i, j, hi, hCovers.grow g, ih hRest⟩

theorem append {mid : Nat} {more : List NodeId} (h : t.Laid ts mid lo ids)
    (g : t.Laid ts hi mid more) : t.Laid ts hi lo (ids ++ more) := by
  induction ids generalizing lo with
  | nil => exact g.lower h
  | cons id ids ih =>
    obtain ⟨i, j, hi, hCovers, hRest⟩ := h
    exact ⟨i, j, hi, hCovers, ih hRest⟩

theorem split {more : List NodeId} (h : t.Laid ts hi lo (ids ++ more)) :
    ∃ mid, t.Laid ts mid lo ids ∧ t.Laid ts hi mid more := by
  induction ids generalizing lo with
  | nil => exact ⟨lo, Nat.le_refl lo, h⟩
  | cons id ids ih =>
    obtain ⟨i, j, hi, hCovers, hRest⟩ := h
    obtain ⟨mid, hLeft, hRight⟩ := ih hRest
    exact ⟨mid, ⟨i, j, hi, hCovers, hLeft⟩, hRight⟩

theorem single (h : t.Covers ts id i j) (hl : lo ≤ i) (hh : j ≤ hi) : t.Laid ts hi lo [id] :=
  ⟨i, j, hl, h, hh⟩

/-- Nodes at the front of a row can be left out. -/
theorem drop (h : t.Laid ts hi lo (id :: ids)) : t.Laid ts hi lo ids := by
  obtain ⟨i, j, hi, hCovers, hRest⟩ := h
  exact hRest.lower (hi.trans hCovers.lt.le)

/-- The spans of two nodes that lie in a row. -/
theorem pair {left right : NodeId} (h : t.Laid ts hi lo [left, right]) :
    ∃ i j first last l r, lo ≤ i ∧ i < j ∧ j ≤ hi ∧
      ts[i]? = some first ∧ ts[j - 1]? = some last ∧ t.get? left = some l ∧ t.get? right = some r ∧
      l.span.start = first.span.start ∧ r.span.stop = last.span.stop ∧
      t.Laid ts j i [left, right] := by
  obtain ⟨i, a, hi, hLeft, b, j, hb, hRight, hj⟩ := h
  obtain ⟨first, _, hFirst, -, hLeftSpan⟩ := hLeft.span
  obtain ⟨_, last, -, hLast, hRightSpan⟩ := hRight.span
  obtain ⟨l, hl, hStart⟩ := Option.map_eq_some_iff.mp hLeftSpan
  obtain ⟨r, hr, hStop⟩ := Option.map_eq_some_iff.mp hRightSpan
  have ha := hLeft.lt
  have hLess := hRight.lt
  refine ⟨i, j, first, last, l, r, hi, by omega, hj, hFirst, hLast, hl, hr, ?_, ?_, ?_⟩
  · rw [hStart]
  · rw [hStop]
  · exact ⟨i, a, Nat.le_refl i, hLeft, b, j, hb, hRight, Nat.le_refl j⟩

end Laid

theorem Tidy.grow (h : t.Tidy ts id) (g : t.Extends u) : u.Tidy ts id := by
  obtain ⟨i, j, k, hCovers, hk, hLaid⟩ := h
  exact ⟨i, j, k, hCovers.grow g, g.kind? hk, hLaid.grow g⟩

theorem span?_push (t : Tree) (node : Node) : (t.push node).span? t.size = some node.span := by
  simp [span?, Tree.get?, Tree.push, Tree.size]

end Tree

namespace Parser

variable {p : Parser}

theorem ne_eof_of_head? {head : Head} (h : p.head? p.kind = some head) : p.kind ≠ .eof := by
  intro hk
  rw [head?, hk] at h
  split at h <;> cases h

theorem ne_eof_of_operator? {tail : Tail × Power} (h : p.operator? p.kind = some tail) :
    p.kind ≠ .eof := by
  intro hk
  rw [operator?, hk] at h
  split at h <;> cases h

theorem ne_eof_of_form? {form : Form} (h : p.form? p.kind = some form) : p.kind ≠ .eof := by
  intro hk
  rw [form?, hk] at h
  split at h <;> cases h

/-- Before the end of the tokens, the current token is the one at the current place. -/
theorem getElem?_pos (h : p.pos < p.tokens.size) : p.tokens[p.pos]? = some p.current := by
  have hMin : min p.pos (p.tokens.size - 1) = p.pos := by omega
  rw [current, hMin, Array.getElem?_eq_getElem h]
  rfl

end Parser

namespace Parse

/-! ### Reading -/

class Visible (kind : TokenKind) : Prop where
  ne_eof : kind ≠ .eof

instance visible_symbol (s : Symbol) : Visible (.symbol s) := ⟨by simp⟩

instance visible_keyword (k : Keyword) : Visible (.keyword k) := ⟨by simp⟩

theorem inside_advanced {p : Parser} (hp : p.Proper) (hk : p.kind ≠ .eof) :
    p.pos + 1 < p.tokens.size := by
  obtain ⟨rest, hLeft⟩ := hp.left_of_kind hk
  have hLess := Parser.lt_size_of_left hLeft
  obtain ⟨before, last, hTokens, hLast⟩ := hp.ends
  have hSize : p.tokens.size = before.length + 1 := by
    rw [← Array.length_toList, hTokens, List.length_append, List.length_singleton]
  refine Nat.lt_of_le_of_ne hLess fun hEq => hk ?_
  -- the last token is the end of the source
  have hPos : p.pos = before.length := by omega
  rw [Parser.left, hTokens, hPos, List.drop_left] at hLeft
  rw [Parser.kind, ← (List.cons.inj hLeft).1, hLast]

/-- The parser reads on and leaves the tree alone, and it does not read the end of the source. -/
structure Idle (p q : Parser) : Prop where
  tokens : q.tokens = p.tokens
  grammar : q.knowsGrammar = p.knowsGrammar
  tree : q.tree = p.tree
  pos_le : p.pos ≤ q.pos
  inside : p.Proper → p.pos < p.tokens.size → q.pos < p.tokens.size

theorem Idle.advance {p : Parser} (h : p.kind ≠ .eof) : Idle p p.advanced :=
  ⟨rfl, rfl, rfl, Nat.le_succ _, fun hp _ => inside_advanced hp h⟩

theorem Idle.proper {p q : Parser} (h : Idle p q) (hp : p.Proper) : q.Proper :=
  ⟨h.grammar.trans hp.grammar, h.tokens ▸ hp.ends⟩

instance path_idle : Path Idle where
  refl p := ⟨rfl, rfl, rfl, Nat.le_refl _, fun _ h => h⟩
  trans h g := by
    refine ⟨g.tokens.trans h.tokens, g.grammar.trans h.grammar, g.tree.trans h.tree,
      h.pos_le.trans g.pos_le, fun hp hi => ?_⟩
    have hMid := h.inside hp hi
    rw [← h.tokens] at hMid ⊢
    exact g.inside (h.proper hp) hMid

section Reading

variable (kind : TokenKind) [hKind : Visible kind]

instance idle_expectOr (d : Diagnostic) : Runs Idle (expectOr kind d) where
  related h := by
    obtain ⟨hk, -, rfl⟩ := expectOr_eq_ok h
    exact .advance (hk ▸ hKind.ne_eof)

instance idle_expect : Runs Idle (expect kind) := by
  unfold expect
  infer_instance

instance idle_eat : Runs Idle (eat kind) where
  related h := by
    rw [eat] at h
    split at h <;> cases h
    · exact .advance (‹_ = kind› ▸ hKind.ne_eof)
    · exact Path.refl _

end Reading

instance idle_expectSymbol (s : Symbol) : Runs Idle (expectSymbol s) := by
  unfold expectSymbol
  infer_instance

instance idle_bindName (name : String) (id : NodeId) (position : Position) :
    Runs Idle (bindName name id position) where
  related h := by
    rw [bindName] at h
    split at h <;> cases h
    exact ⟨rfl, rfl, rfl, Nat.le_refl _, fun _ h => h⟩

instance idle_declareExisting (id : NodeId) : Runs Idle (declareExisting id) := by
  unfold declareExisting
  infer_instance

/-! ### Rows -/

/-- From token `lo` on, the nodes lie in a row before the current token. -/
structure Since (ts : Array Token) (lo : Nat) (ids : List NodeId) (p : Parser) : Prop where
  tokens : p.tokens = ts
  proper : p.Proper
  inside : p.pos < ts.size
  laid : p.tree.Laid ts p.pos lo ids

def Spanned (ts : Array Token) (p q : Parser) : Prop :=
  p.tree.Extends q.tree ∧ ∀ id, p.tree.size ≤ id → id < q.tree.size → q.tree.Tidy ts id

/-- From a parser with `pre`, the step adds tidy nodes and comes to a parser with `post` if it
ends well. -/
def Neat (ts : Array Token) {α : Type} (pre : Parser → Prop) (step : Parse α)
    (post : α → Parser → Prop) : Prop :=
  ∀ (p q : Parser) (a : α), step p = .ok a q → pre p → Spanned ts p q ∧ post a q

def Lays (ts : Array Token) {α : Type} (nodes : α → List NodeId) (step : Parse α) : Prop :=
  ∀ lo ids, Neat ts (Since ts lo ids) step fun a => Since ts lo (ids ++ nodes a)

structure Starts (ts : Array Token) (lo : Nat) (p : Parser) : Prop where
  since : Since ts lo [] p
  pos : p.pos = lo
  ne_eof : p.kind ≠ .eof

/-- The step adds its nodes to the row, unless it starts at the end of the source. -/
def LaysFirst (ts : Array Token) {α : Type} (nodes : α → List NodeId) (step : Parse α) : Prop :=
  ∀ lo, Neat ts (Starts ts lo) step fun a => Since ts lo (nodes a)

theorem Spanned.refl (ts : Array Token) (p : Parser) : Spanned ts p p :=
  ⟨.refl _, fun _ h h' => absurd h' (Nat.not_lt_of_le h)⟩

theorem Spanned.trans {ts : Array Token} {p q r : Parser} (h : Spanned ts p q)
    (g : Spanned ts q r) : Spanned ts p r := by
  refine ⟨h.1.trans g.1, fun id hp hr => ?_⟩
  rcases Nat.lt_or_ge id q.tree.size with hq | hq
  · exact (h.2 id hp hq).grow g.1
  · exact g.2 id hq hr

theorem Spanned.of_tree_eq {ts : Array Token} {p q : Parser} (h : q.tree = p.tree) :
    Spanned ts p q := by
  have hRefl := Spanned.refl ts p
  rwa [Spanned, ← h] at hRefl ⊢

variable {ts : Array Token} {α β : Type} {pre : Parser → Prop} {step : Parse α}
  {post : α → Parser → Prop} {lo i : Nat} {ids : List NodeId}

theorem Since.lower {p : Parser} {lower : Nat} (h : Since ts lo ids p) (hl : lower ≤ lo) :
    Since ts lower ids p :=
  { h with laid := h.laid.lower hl }

theorem Since.drop {p : Parser} {id : NodeId} (h : Since ts lo (id :: ids) p) : Since ts lo ids p :=
  { h with laid := h.laid.drop }

section Rules

theorem Neat.bind {next : α → Parse β} {goal : β → Parser → Prop} (h : Neat ts pre step post)
    (hn : ∀ a, Neat ts (post a) (next a) goal) : Neat ts pre (step >>= next) goal := by
  intro p r b hRun hPre
  obtain ⟨a, q, hStep, hNext⟩ := bind_eq_ok hRun
  obtain ⟨hSpanned, hPost⟩ := h p q a hStep hPre
  obtain ⟨hMore, hGoal⟩ := hn a q r b hNext hPost
  exact ⟨hSpanned.trans hMore, hGoal⟩

theorem Neat.pure {a : α} (h : ∀ p, pre p → post a p) : Neat ts pre (pure a) post := by
  intro p q b hRun hPre
  cases hRun
  exact ⟨.refl _ _, h _ hPre⟩

theorem Neat.ite {c : Prop} [Decidable c] {other : Parse α} (h : Neat ts pre step post)
    (hOther : Neat ts pre other post) : Neat ts pre (if c then step else other) post := by
  split
  · exact h
  · exact hOther

theorem Neat.weaken {goal : α → Parser → Prop} (h : Neat ts pre step post)
    (hg : ∀ a p, post a p → goal a p) : Neat ts pre step goal := by
  intro p q a hRun hPre
  obtain ⟨hSpanned, hPost⟩ := h p q a hRun hPre
  exact ⟨hSpanned, hg a q hPost⟩

theorem Neat.strengthen {weak : Parser → Prop} (h : Neat ts weak step post)
    (hw : ∀ p, pre p → weak p) : Neat ts pre step post :=
  fun p q a hRun hPre => h p q a hRun (hw p hPre)

theorem Neat.fail (d : Diagnostic) : Neat ts pre (fail d : Parse α) post :=
  fun _ _ _ hRun => by cases hRun

theorem Neat.look {f : Parser → β} {next : β → Parse α}
    (h : ∀ b, Neat ts (fun p => pre p ∧ f p = b) (next b) post) :
    Neat ts pre (look f >>= next) post :=
  fun p q a hRun hPre => h (f p) p q a hRun ⟨hPre, rfl⟩

/-- A step that only reads keeps the row. -/
theorem Neat.still [hs : Runs Idle step] :
    Neat ts (Since ts lo ids) step fun _ => Since ts lo ids := by
  intro p q a hRun hPre
  have hIdle : Idle p q := hs.related hRun
  have hInside : q.pos < ts.size := by
    have hBefore := hPre.inside
    rw [← hPre.tokens] at hBefore ⊢
    exact hIdle.inside hPre.proper hBefore
  refine ⟨.of_tree_eq hIdle.tree, hIdle.tokens.trans hPre.tokens, hIdle.proper hPre.proper,
    hInside, ?_⟩
  rw [hIdle.tree]
  exact hPre.laid.raise hIdle.pos_le

/-- It is enough to know what a step does to an empty row. -/
theorem Lays.intro {nodes : α → List NodeId}
    (h : ∀ lo, Neat ts (fun p => Since ts lo [] p ∧ p.pos = lo) step
      fun a => Since ts lo (nodes a)) :
    Lays ts nodes step := by
  intro lo ids p q a hRun hPre
  have hEmpty : Since ts p.pos [] p := { hPre with laid := Nat.le_refl _ }
  obtain ⟨hSpanned, hPost⟩ := h p.pos p q a hRun ⟨hEmpty, rfl⟩
  exact ⟨hSpanned, { hPost with laid := (hPre.laid.grow hSpanned.1).append hPost.laid }⟩

theorem Since.token {p : Parser} (h : Since ts lo ids p) : ts[p.pos]? = some p.current := by
  have hGet := Parser.getElem?_pos (h.tokens ▸ h.inside)
  rwa [h.tokens] at hGet

/-- A rule that takes the current token first. -/
theorem Neat.first {next : Token → Parse α}
    (h : ∀ token, ts[i]? = some token → Neat ts (Since ts (i + 1) []) (next token) post) :
    Neat ts (Starts ts i) (advance >>= next) post := by
  intro p q a hRun hPre
  have hInside := inside_advanced hPre.since.proper hPre.ne_eof
  refine h p.current (hPre.pos ▸ hPre.since.token) p.advanced q a hRun ?_
  have hProper : p.advanced.Proper := ⟨hPre.since.proper.grammar, hPre.since.proper.ends⟩
  refine ⟨hPre.since.tokens, hProper, hPre.since.tokens ▸ hInside, ?_⟩
  show i + 1 ≤ p.pos + 1
  rw [hPre.pos]

/-! ### New nodes -/

theorem spanned_push {p : Parser} {k : NodeKind} {span : Span} {j : Nat}
    (h : (p.tree.push ⟨k, span⟩).Covers ts p.tree.size i j)
    (hParts : p.tree.Laid ts j i k.children) :
    Spanned ts p { p with tree := p.tree.push ⟨k, span⟩ } := by
  refine ⟨.push _ _, fun id hLow hHigh => ?_⟩
  have hSize : id < p.tree.size + 1 := by simpa using hHigh
  have hId : id = p.tree.size := Nat.le_antisymm (Nat.le_of_lt_succ hSize) hLow
  exact hId ▸ ⟨i, j, k, h, Tree.kind?_push_size _ _, hParts.grow (.push _ _)⟩

/-- A new node in place of the part of the row that its parts lie in. -/
theorem Since.node {p q : Parser} {k : NodeKind} {span : Span} {id : NodeId} {mid j : Nat}
    {first last : Token} (held : List NodeId) (h : Since ts lo ids p)
    (hRun : push k span p = .ok id q) (hHeld : p.tree.Laid ts mid lo held)
    (hParts : p.tree.Laid ts j i k.children) (hMid : mid ≤ i) (hij : i < j) (hj : j ≤ p.pos)
    (hFirst : ts[i]? = some first) (hLast : ts[j - 1]? = some last)
    (hSpan : span = ⟨first.span.start, last.span.stop⟩) :
    Spanned ts p q ∧ Since ts lo (held ++ [id]) q := by
  cases hRun
  have hCovers : (p.tree.push ⟨k, span⟩).Covers ts p.tree.size i j :=
    ⟨hij, hj.trans_lt h.inside, first, last, hFirst, hLast, by rw [Tree.span?_push, hSpan]⟩
  have hRow := (hHeld.grow (.push _ ⟨k, span⟩)).append (.single hCovers hMid hj)
  exact ⟨spanned_push hCovers hParts, h.tokens, ⟨h.proper.grammar, h.proper.ends⟩, h.inside, hRow⟩

theorem Since.previousEnd_eq {p : Parser} (h : Since ts lo ids p) (hPos : 0 < p.pos) :
    ∃ last, ts[p.pos - 1]? = some last ∧ p.previousEnd = last.span.stop := by
  have hInside := h.inside
  have hLess : p.pos - 1 < ts.size := by omega
  obtain ⟨last, hLast⟩ : ∃ last, ts[p.pos - 1]? = some last := ⟨_, Array.getElem?_eq_getElem hLess⟩
  obtain ⟨n, hn⟩ := Nat.exists_eq_succ_of_ne_zero hPos.ne'
  have hGet : p.tokens[n]? = some last := by rw [h.tokens, ← hLast, hn, Nat.succ_sub_one]
  refine ⟨last, hLast, ?_⟩
  rw [Parser.previousEnd, hn]
  simp only [hGet]

/-- A node from the start of a token on, over all that lies behind it. -/
theorem neat_pushFrom {k : NodeKind} {token : Token} (hToken : ts[i]? = some token) (hi : i ≤ lo)
    (hSome : i < lo ∨ k.children ≠ []) :
    Neat ts (Since ts lo k.children) (pushFrom token.span.start k) fun id => Since ts i [id] := by
  intro p q id hRun hPre
  have hLess : i < p.pos := by
    rcases hSome with hLess | hSome
    · exact hLess.trans_le hPre.laid.le
    · obtain ⟨c, cs, hc⟩ := List.exists_cons_of_ne_nil hSome
      have hLaid := hPre.laid
      rw [hc] at hLaid
      obtain ⟨a, b, ha, hCovers, hRest⟩ := hLaid
      have hab := hCovers.lt
      have hb := hRest.le
      omega
  obtain ⟨last, hLast, hStop⟩ := hPre.previousEnd_eq (Nat.zero_lt_of_lt hLess)
  have hLow : Since ts i k.children p := hPre.lower hi
  refine hLow.node [] hRun (Nat.le_refl i) hLow.laid (Nat.le_refl i) hLess (Nat.le_refl _) hToken
    hLast ?_
  show (⟨token.span.start, p.previousEnd⟩ : Span) = _
  rw [hStop]

/-- A node from the start of its first token on. -/
theorem neat_pushFirst {k : NodeKind} {token : Token} (hToken : ts[i]? = some token) :
    Neat ts (Since ts (i + 1) k.children) (pushFrom token.span.start k) fun id => Since ts i [id] :=
  neat_pushFrom hToken (Nat.le_succ i) (.inl (Nat.lt_succ_self i))

/-- A node that is one token. -/
theorem neat_push {k : NodeKind} {token : Token} (hToken : ts[i]? = some token)
    (hk : k.children = []) :
    Neat ts (Since ts (i + 1) []) (push k token.span) fun id => Since ts i [id] := by
  intro p q id hRun hPre
  have hParts : p.tree.Laid ts (i + 1) i k.children := by
    rw [hk]
    exact Nat.le_succ i
  exact (hPre.lower (Nat.le_succ i)).node [] hRun (Nat.le_refl i) hParts (Nat.le_refl i)
    (Nat.lt_succ_self i) hPre.laid.le hToken hToken rfl

/-- A node that is one token and stands in no row. -/
theorem neat_push_aside {k : NodeKind} {token : Token} (hToken : ts[i]? = some token)
    (hk : k.children = []) (hi : i < lo) :
    Neat ts (Since ts lo ids) (push k token.span) fun _ => Since ts lo ids := by
  intro p q id hRun hPre
  cases hRun
  have hInside : i + 1 < ts.size :=
    (Nat.succ_le_of_lt hi).trans_lt (hPre.laid.le.trans_lt hPre.inside)
  have hParts : p.tree.Laid ts (i + 1) i k.children := by
    rw [hk]
    exact Nat.le_succ i
  have hCovers : (p.tree.push ⟨k, token.span⟩).Covers ts p.tree.size i (i + 1) :=
    ⟨Nat.lt_succ_self i, hInside, token, token, hToken, hToken, Tree.span?_push _ _⟩
  exact ⟨spanned_push hCovers hParts, hPre.tokens, ⟨hPre.proper.grammar, hPre.proper.ends⟩,
    hPre.inside, hPre.laid.grow (.push _ _)⟩

/-- A node from the start of one part to the end of another. -/
theorem neat_between {k : NodeKind} {left right : NodeId} (held : List NodeId)
    (hk : k.children = [left, right]) :
    Neat ts (Since ts lo (held ++ [left, right]))
      (look (·.spanBetween left right) >>= fun span => push k span)
      fun id => Since ts lo (held ++ [id]) := by
  intro p q id hRun hPre
  obtain ⟨mid, hHeld, hParts⟩ := hPre.laid.split
  obtain ⟨i, j, first, last, l, r, hi, hij, hj, hFirst, hLast, hl, hr, hStart, hStop, hLaid⟩ :=
    hParts.pair
  refine hPre.node held hRun hHeld (hk ▸ hLaid) hi hij hj hFirst hLast ?_
  simp only [Parser.spanBetween, hl, hr, hStart, hStop]

theorem Neat.between {k : NodeKind} {left right : NodeId} {next : NodeId → Parse α}
    (held : List NodeId) (hk : k.children = [left, right])
    (h : ∀ id, Neat ts (Since ts lo (held ++ [id])) (next id) post) :
    Neat ts (Since ts lo (held ++ [left, right]))
      (Parse.look (·.spanBetween left right) >>= fun span => Parse.push k span >>= next) post :=
  fun p q a hRun => (neat_between held hk).bind h p q a hRun

/-- A node from the start of a part on, over all that lies behind it. -/
theorem neat_pushAfter {k : NodeKind} {left right : NodeId} (hk : k.children = [left, right]) :
    Neat ts (Since ts lo [left, right]) (pushAfter left right k) fun id => Since ts lo [id] := by
  intro p q id hRun hPre
  obtain ⟨i, j, first, last, l, r, hi, hij, hj, hFirst, -, hl, hr, hStart, -, hLaid⟩ :=
    hPre.laid.pair
  have hLess : i < p.pos := hij.trans_le hj
  obtain ⟨final, hFinal, hStop⟩ := hPre.previousEnd_eq (Nat.zero_lt_of_lt hLess)
  refine hPre.node [] hRun (Nat.le_refl lo) (hk ▸ hLaid.raise hj) hi hLess (Nat.le_refl _) hFirst
    hFinal ?_
  simp only [Parser.spanBetween, Parser.spanFrom, hl, hr, hStart, hStop]

/-- Takes the current token into the row, in a place where it belongs to no node. -/
theorem Neat.skip {next : Token → Parse α}
    (h : ∀ token, Neat ts (Since ts lo ids) (next token) post) :
    Neat ts (fun p => Since ts lo ids p ∧ p.kind ≠ .eof) (advance >>= next) post := by
  intro p q a hRun ⟨hPre, hKind⟩
  have hInside := inside_advanced hPre.proper hKind
  refine h p.current p.advanced q a hRun ⟨hPre.tokens, ?_, hPre.tokens ▸ hInside, ?_⟩
  · exact ⟨hPre.proper.grammar, hPre.proper.ends⟩
  · exact hPre.laid.raise (Nat.le_succ _)

theorem Lays.nested {nodes : α → List NodeId} (h : Lays ts nodes step) :
    Lays ts nodes (nested step) := by
  intro lo ids p q a hRun hPre
  obtain ⟨-, r, hStep, rfl⟩ := nested_eq_ok hRun
  have hProper : Parser.Proper { p with nesting := p.nesting + 1 } := hPre.proper.inside
  have hInner : Since ts lo ids { p with nesting := p.nesting + 1 } :=
    ⟨hPre.tokens, hProper, hPre.inside, hPre.laid⟩
  obtain ⟨hSpanned, hPost⟩ := h lo ids _ r a hStep hInner
  exact ⟨hSpanned, hPost.tokens, ⟨hPost.proper.grammar, hPost.proper.ends⟩, hPost.inside,
    hPost.laid⟩

end Rules

/-! ### Expressions -/

def LaysExpr (ts : Array Token) (expr : ExprParser) : Prop :=
  ∀ power, Lays ts (fun id => [id]) (expr power)

theorem lays_commaItems {item : Parse NodeId} {nodes : NodeId → List NodeId}
    (h : Lays ts nodes item) (close : TokenKind) (n : Nat) :
    Lays ts (List.flatMap nodes) (commaItems close item n) := by
  induction n with
  | zero => exact fun lo ids => .pure fun p hp => by simpa using hp
  | succ n ih =>
    intro lo ids
    refine Neat.still.bind fun b => .ite (.pure fun p hp => by simpa using hp) ?_
    refine (h lo ids).bind fun id => Neat.still.bind fun b => .ite ?_ ?_
    · exact (ih lo _).bind fun more => .pure fun p hp => by simpa using hp
    · exact .pure fun p hp => by simpa using hp

theorem lays_commaList {item : Parse NodeId} {nodes : NodeId → List NodeId}
    (h : Lays ts nodes item) (close : Symbol) :
    Lays ts (List.flatMap nodes) (commaList close item) := by
  intro lo ids
  refine Neat.still.bind fun n => (lays_commaItems h _ n lo ids).bind fun items => ?_
  exact Neat.still.bind fun _ => .pure fun p hp => hp

section Expressions

variable {expr : ExprParser}

theorem LaysExpr.commaList (h : LaysExpr ts expr) (close : Symbol) :
    Lays ts (fun ids => ids) (commaList close (expr .lowest)) := by
  intro lo ids
  refine (lays_commaList (h _) close lo ids).weaken fun items p hp => ?_
  rwa [List.flatMap_singleton'] at hp

theorem LaysExpr.callArgs (h : LaysExpr ts expr) : Lays ts (fun ids => ids) (callArgs expr) :=
  fun lo ids => Neat.still.bind fun _ => h.commaList _ lo ids

theorem laysFirst_head (h : LaysExpr ts expr) (kind : Head) :
    LaysFirst ts (fun id => [id]) (head expr kind) := by
  intro i
  cases kind with
  | literal =>
    refine .first fun token hToken => ?_
    cases hk : literalKind token with
    | error c => exact .fail _
    | ok k => exact neat_push hToken (literalKind_ok hk).2.2
  | name =>
    refine .first fun token hToken => Neat.still.bind fun b => .ite ?_ ?_
    · refine (h.callArgs _ _).bind fun args => ?_
      exact neat_pushFirst hToken
    · exact neat_push hToken rfl
  | array =>
    refine .first fun token hToken => (h.commaList _ _ _).bind fun elems => ?_
    exact neat_pushFirst hToken
  | group =>
    refine .first fun _ _ => (h _ _ _).bind fun id => Neat.still.bind fun _ => ?_
    exact .pure fun p hp => hp.lower (Nat.le_succ i)
  | absolute =>
    refine .first fun token hToken => (h _ _ _).bind fun id => Neat.still.bind fun _ => ?_
    exact neat_pushFirst hToken
  | sign =>
    refine .first fun token hToken => (h _ _ _).bind fun id => ?_
    exact neat_pushFirst hToken

theorem neat_tail (h : LaysExpr ts expr) (left : NodeId) (power : Power) (kind : Tail) :
    Neat ts (fun p => Since ts lo [left] p ∧ p.kind ≠ .eof) (tail expr left power kind)
      fun id => Since ts lo [id] := by
  cases kind with
  | binary =>
    refine .skip fun token => ?_
    cases BinaryOp.ofKind? token.kind with
    | none => exact .fail _
    | some op => exact (h _ _ _).bind fun right => neat_between [] rfl
  | exponent => exact .skip fun _ => (h _ _ _).bind fun right => neat_between [] rfl
  | index =>
    refine .skip fun _ => (h _ _ _).bind fun start => Neat.still.bind fun b => .ite ?_ ?_
    · refine (h _ _ _).bind fun stop => .between [left] rfl fun bounds => ?_
      exact Neat.still.bind fun _ => neat_pushAfter rfl
    · exact Neat.still.bind fun _ => neat_pushAfter rfl

theorem neat_extend (h : LaysExpr ts expr) (power : Power) (n : Nat) (left : NodeId) :
    Neat ts (Since ts lo [left]) (extend expr power n left) fun id => Since ts lo [id] := by
  induction n generalizing left with
  | zero => exact .pure fun p hp => hp
  | succ n ih =>
    rw [extend_succ]
    refine .look fun found => ?_
    cases found with
    | none => exact .pure fun p hp => hp.1
    | some tighter =>
      refine .ite (.pure fun p hp => hp.1) ?_
      refine ((neat_tail h left _ _).strengthen ?_).bind fun id => ih id
      exact fun p hp => ⟨hp.1, Parser.ne_eof_of_operator? hp.2⟩

theorem laysExpr_exprWith (h : LaysExpr ts expr) : LaysExpr ts (exprWith expr) := by
  intro power
  refine .intro fun i => .look fun found => ?_
  cases found with
  | none => exact fun _ _ _ hRun => by cases hRun
  | some kind =>
    refine ((laysFirst_head h kind i).strengthen ?_).bind fun left => Neat.still.bind fun n => ?_
    · exact fun p hp => ⟨hp.1.1, hp.1.2, Parser.ne_eof_of_head? hp.2⟩
    · exact neat_extend h power n left

theorem laysExpr_exprAt (levels : Nat) : LaysExpr ts (exprAt levels) := by
  induction levels with
  | zero => exact fun _ _ _ _ _ _ hRun => by cases hRun
  | succ levels ih => exact fun power => (laysExpr_exprWith ih power).nested

end Expressions

/-! ### Statements -/

section Statements

variable {inner : Inner}

theorem Neat.map {f : α → β} {goal : β → Parser → Prop} (h : Neat ts pre step post)
    (hf : ∀ a p, post a p → goal (f a) p) : Neat ts pre (f <$> step) goal :=
  h.bind fun a => .pure (hf a)

/-- A name is a token of its own. -/
theorem Neat.name {context : String} {next : Token → Parse α}
    (h : ∀ token j, lo ≤ j → ts[j]? = some token →
      Neat ts (Since ts (j + 1) []) (next token) post) :
    Neat ts (Since ts lo []) (expectName context >>= next) post := by
  intro p r a hRun hPre
  obtain ⟨token, q, hName, hNext⟩ := bind_eq_ok hRun
  obtain ⟨hKind, rfl, rfl⟩ : p.kind = .identifier ∧ token = p.current ∧ q = p.advanced :=
    expectOr_eq_ok hName
  have hStarts : Starts ts p.pos p :=
    ⟨{ hPre with laid := Nat.le_refl _ }, rfl, by rw [hKind]; simp⟩
  refine Neat.first (fun token hToken => h token p.pos hPre.laid.le hToken) p r a ?_ hStarts
  exact hNext

theorem Neat.position {next : Position → Parse α}
    (h : ∀ token j, lo ≤ j → ts[j]? = some token →
      Neat ts (Since ts j []) (next token.span.start) post) :
    Neat ts (Since ts lo []) (Parse.look Parser.position >>= next) post := by
  intro p q a hRun hPre
  exact h p.current p.pos hPre.laid.le hPre.token p q a hRun { hPre with laid := Nat.le_refl _ }

/-- If the current token is of the kind, it is not the end of the source. -/
theorem Neat.ifAt {kind : TokenKind} [hk : Visible kind] {other : Parse α}
    (h : Neat ts (fun p => pre p ∧ p.kind ≠ .eof) step post) (hOther : Neat ts pre other post) :
    Neat ts pre (atKind kind >>= fun b => if b = true then step else other) post := by
  intro p q a hRun hPre
  change (if decide (p.kind = kind) = true then step else other) p = .ok a q at hRun
  by_cases hKind : p.kind = kind
  · rw [if_pos (decide_eq_true hKind)] at hRun
    exact h p q a hRun ⟨hPre, hKind ▸ hk.ne_eof⟩
  · rw [if_neg (by simp [hKind])] at hRun
    exact hOther p q a hRun hPre

theorem neat_bindName {name : String} {id : NodeId} {position : Position} :
    Neat ts (Since ts lo [id]) (bindName name id position) fun id => Since ts lo [id] := by
  intro p q a hRun hPre
  have hIdle := Neat.still p q a hRun hPre
  rw [bindName] at hRun
  split at hRun <;> cases hRun
  exact hIdle

theorem neat_declare {d : Definition} {token : Token} (hToken : ts[i]? = some token)
    (hd : d.body? = none) :
    Neat ts (Since ts (i + 1) []) (declare d token.span) fun id => Since ts i [id] :=
  (neat_push hToken (by simp [NodeKind.children, hd])).bind fun _ => neat_bindName

/-- A definition from the start of a token on, over the body behind it. -/
theorem neat_declareFrom {d : Definition} {token : Token} {body : NodeId}
    (hToken : ts[i]? = some token) (hd : d.body? = some body) (hi : i < lo) :
    Neat ts (Since ts lo [body])
      (Parse.look (·.spanFrom token.span.start) >>= fun span =>
        declare d span >>= fun _ => Pure.pure ())
      fun _ => Since ts i [] := by
  have hParts : (NodeKind.definition d).children = [body] := by simp [NodeKind.children, hd]
  have hNode : Neat ts (Since ts lo [body]) (pushFrom token.span.start (.definition d))
      fun id => Since ts i [id] := hParts ▸ neat_pushFrom hToken hi.le (.inl hi)
  have hDeclare : Neat ts (Since ts lo [body])
      (pushFrom token.span.start (.definition d) >>= fun id =>
        bindName d.name id token.span.start >>= fun _ => Pure.pure ()) fun _ => Since ts i [] :=
    hNode.bind fun id => neat_bindName.bind fun _ => .pure fun p hp => hp.drop
  exact fun p q a hRun => hDeclare p q a hRun

theorem lays_condition (h : LaysExpr ts inner.expr) :
    Lays ts (fun id => [id]) (condition inner) := by
  intro lo ids
  refine Neat.still.bind fun _ => (h _ _ _).bind fun cond => Neat.still.bind fun _ => ?_
  exact .pure fun p hp => hp

theorem lays_param : Lays ts (fun _ => []) param := by
  refine .intro fun i => ?_
  refine Neat.strengthen ?_ fun p hp => hp.1
  refine Neat.still.bind fun _ => .name fun token j hj hToken => ?_
  exact (neat_push hToken rfl).weaken fun id p hp => hp.drop.lower hj

theorem lays_params : Lays ts (fun _ => []) params := by
  intro lo ids
  refine Neat.still.bind fun b => .ite ?_ (.pure fun p hp => by simpa using hp)
  refine (lays_commaList lays_param _ lo ids).weaken fun items p hp => ?_
  rwa [List.flatMap_eq_nil_iff.mpr fun _ _ => rfl] at hp

theorem laysFirst_varDecl (h : LaysExpr ts inner.expr) :
    LaysFirst ts (fun id => [id]) (varDecl inner) := by
  intro i
  refine .first fun first hFirst => .name fun token j hj hToken => ?_
  refine (neat_declare hToken rfl).bind fun id => ?_
  refine Neat.still.bind fun b => .ite ?_ ?_
  · refine (h _ _ _).bind fun rhs => Neat.still.bind fun _ => ?_
    exact (neat_pushFrom hFirst (Nat.le_of_succ_le hj) (.inl hj)).strengthen fun p hp => hp.drop
  · exact Neat.still.bind fun _ => .pure fun p hp => hp.lower (Nat.le_of_succ_le hj)

structure LaysInner (ts : Array Token) (inner : Inner) : Prop where
  expr : LaysExpr ts inner.expr
  block : ∀ decls, Lays ts (fun id => [id]) (inner.block decls)

theorem laysFirst_callableDef (h : LaysInner ts inner) :
    LaysFirst ts (fun _ => []) (callableDef inner) := by
  intro i
  refine .first fun first hFirst => .name fun token j hj _ => (lays_params _ _).bind fun ids => ?_
  have hLess : i < j + 1 := Nat.lt_succ_of_lt hj
  dsimp only
  refine .ite ?_ ?_
  · refine (neat_push_aside hFirst rfl hLess).bind fun result => (h.block _ _ _).bind fun body => ?_
    exact fun p q a hRun => neat_declareFrom hFirst rfl hLess p q a hRun
  · refine (h.block _ _ _).bind fun body => ?_
    exact fun p q a hRun => neat_declareFrom hFirst rfl hLess p q a hRun

theorem laysFirst_subDef (h : LaysInner ts inner) : LaysFirst ts (fun _ => []) (subDef inner) := by
  intro i
  refine .first fun first hFirst => .name fun token j hj _ => (h.block _ _ _).bind fun body => ?_
  exact neat_declareFrom hFirst rfl (Nat.lt_succ_of_lt hj)

theorem laysFirst_entryRoutine (h : LaysInner ts inner) :
    LaysFirst ts (fun _ => []) (entryRoutine inner) := by
  intro i
  refine .first fun first hFirst => (h.block _ _ _).bind fun body => ?_
  exact neat_declareFrom hFirst rfl (Nat.lt_succ_self i)

theorem laysFirst_header : LaysFirst ts (fun id => [id]) header :=
  fun _ => .first fun _ hToken => neat_push hToken rfl

/-! ### Control -/

theorem lays_elseBranches (h : LaysInner ts inner) (n : Nat) :
    Lays ts (fun found => found.1 ++ found.2.toList) (elseBranches inner n) := by
  induction n with
  | zero => exact fun lo ids => .pure fun p hp => by simpa using hp
  | succ n ih =>
    refine .intro fun i => .ifAt ?_ (.pure fun p hp => hp.1)
    refine Neat.strengthen ?_ fun p hp => Starts.mk hp.1.1 hp.1.2 hp.2
    refine .first fun first hFirst => Neat.still.bind fun b => .ite ?_ ?_
    · refine (lays_condition h.expr _ _).bind fun cond => (h.block _ _ _).bind fun body => ?_
      refine (neat_pushFirst hFirst).bind fun branch => ?_
      refine (ih _ _).bind fun found => .pure fun p hp => by simpa using hp
    · refine (h.block _ _ _).bind fun body => .pure fun p hp => ?_
      exact hp.lower (Nat.le_succ i)

theorem laysFirst_ifElse (h : LaysInner ts inner) :
    LaysFirst ts (fun id => [id]) (ifElse inner) := by
  intro i
  refine .first fun first hFirst => (lays_condition h.expr _ _).bind fun cond => ?_
  refine (h.block _ _ _).bind fun body => Neat.still.bind fun n => ?_
  refine (lays_elseBranches h n _ _).bind fun found => ?_
  exact neat_pushFirst hFirst

theorem laysFirst_loop (h : LaysInner ts inner) : LaysFirst ts (fun id => [id]) (loop inner) := by
  intro i
  refine .first fun first hFirst => Neat.still.bind fun b => .ite ?_ ?_
  · refine (lays_condition h.expr _ _).bind fun count => (h.block _ _ _).bind fun body => ?_
    exact neat_pushFirst hFirst
  · refine (h.block _ _ _).bind fun body => ?_
    exact neat_pushFirst hFirst

theorem laysFirst_times (h : LaysInner ts inner) : LaysFirst ts (fun id => [id]) (times inner) := by
  intro i
  refine .first fun first hFirst => (lays_condition h.expr _ _).bind fun count => ?_
  refine Neat.still.bind fun b => (h.block _ _ _).bind fun body => ?_
  exact neat_pushFirst hFirst

theorem laysFirst_whileLoop (h : LaysInner ts inner) :
    LaysFirst ts (fun id => [id]) (whileLoop inner) := by
  intro i
  refine .first fun first hFirst => (lays_condition h.expr _ _).bind fun cond => ?_
  refine (h.block _ _ _).bind fun body => ?_
  exact neat_pushFirst hFirst

theorem laysFirst_ascent (h : LaysInner ts inner) :
    LaysFirst ts (fun id => [id]) (ascent inner) := by
  intro i
  refine .first fun first hFirst => Neat.still.bind fun _ => Neat.still.bind fun _ => ?_
  refine .name fun token j hj hToken => ?_
  refine (neat_push_aside hToken rfl (Nat.lt_succ_self j)).bind fun loopVar => ?_
  refine Neat.still.bind fun _ => .position fun start m hm hStart => ?_
  refine (h.expr _ _ _).bind fun low => Neat.still.bind fun _ => (h.expr _ _ _).bind fun high => ?_
  have hBounds : Neat ts (Since ts m [low, high])
      (pushFrom start.span.start (.range low high)) fun id => Since ts m [id] :=
    neat_pushFrom hStart (Nat.le_refl m) (.inr (by simp [NodeKind.children]))
  refine hBounds.bind fun bounds => ?_
  refine Neat.still.bind fun _ => (h.block _ _ _).bind fun body => ?_
  have hLess : i < m := by omega
  split <;> exact neat_pushFrom hFirst hLess.le (.inl hLess)

theorem lays_caseBranches (h : LaysInner ts inner) (n : Nat) :
    Lays ts (fun ids => ids) (caseBranches inner n) := by
  induction n with
  | zero => exact fun lo ids => .pure fun p hp => by simpa using hp
  | succ n ih =>
    refine .intro fun i => .ifAt ?_ (.pure fun p hp => hp.1)
    refine Neat.strengthen ?_ fun p hp => Starts.mk hp.1.1 hp.1.2 hp.2
    refine .first fun first hFirst => (h.expr.callArgs _ _).bind fun values => ?_
    dsimp only
    refine .ite (fun _ _ _ hRun => by cases hRun) ?_
    refine (h.block _ _ _).bind fun body => ?_
    refine (neat_pushFirst hFirst).bind fun branch => ?_
    exact (ih _ _).bind fun branches => .pure fun p hp => hp

theorem laysFirst_alternative (h : LaysInner ts inner) :
    LaysFirst ts (fun id => [id]) (alternative inner) := by
  intro i
  refine .first fun first hFirst => (lays_condition h.expr _ _).bind fun cond => ?_
  refine Neat.still.bind fun n => (lays_caseBranches h n _ _).bind fun branches => ?_
  have hNode : ∀ others : Option NodeId,
      Neat ts (Since ts (i + 1) ([cond] ++ branches ++ others.toList)) (pushFrom first.span.start
        (.alternative cond branches others)) fun id => Since ts i [id] :=
    fun _ => neat_pushFirst hFirst
  refine Neat.still.bind fun b => ?_
  dsimp only
  refine .ite ?_ ?_
  · refine (h.block _ _ _).bind fun body => ?_
    exact fun p q a hRun => hNode (some body) p q a hRun
  · exact fun p q a hRun hPre => hNode none p q a hRun (by simpa using hPre)

theorem laysFirst_localBlock (h : LaysInner ts inner) :
    LaysFirst ts (fun id => [id]) (localBlock inner) := by
  intro i
  refine .first fun first hFirst => (h.block _ _ _).bind fun body => ?_
  exact neat_pushFirst hFirst

theorem laysFirst_returnStmt (h : LaysExpr ts inner.expr) :
    LaysFirst ts (fun id => [id]) (returnStmt inner) := by
  intro i
  refine .first fun first hFirst => Neat.still.bind fun b => .ite ?_ ?_
  · exact neat_pushFirst hFirst
  · refine (h _ _ _).bind fun value => Neat.still.bind fun _ => ?_
    exact neat_pushFirst hFirst

theorem laysFirst_wordStmt {k : NodeKind} (hk : k.children = []) :
    LaysFirst ts (fun id => [id]) (wordStmt k) := by
  intro i
  refine .first fun first hFirst => Neat.still.bind fun _ => ?_
  have hNode := neat_pushFirst hFirst (k := k)
  rwa [hk] at hNode

theorem laysFirst_nop : LaysFirst ts (fun id => [id]) nop :=
  fun _ => .first fun _ hToken => neat_push hToken rfl

/-! ### Assignments and calls -/

theorem lays_indices {expr : ExprParser} (h : LaysExpr ts expr) (n : Nat) :
    Lays ts (fun ids => ids) (indices expr n) := by
  induction n with
  | zero => exact fun lo ids => .pure fun p hp => by simpa using hp
  | succ n ih =>
    intro lo ids
    refine Neat.still.bind fun b => .ite ?_ (.pure fun p hp => by simpa using hp)
    refine (h _ _ _).bind fun id => Neat.still.bind fun _ => (ih _ _).bind fun more => ?_
    exact .pure fun p hp => by simpa using hp

theorem neat_update {expr : ExprParser} (h : LaysExpr ts expr) (lhs : NodeId) (operator : Token) :
    Neat ts (Since ts lo [lhs]) (update expr lhs operator)
      fun k p => k.children ≠ [] ∧ Since ts lo k.children p := by
  unfold update
  split
  · exact .pure fun p hp => ⟨by simp [NodeKind.children], hp⟩
  · exact .pure fun p hp => ⟨by simp [NodeKind.children], hp⟩
  · split
    · exact (h _ _ _).bind fun rhs => .pure fun p hp => ⟨by simp [NodeKind.children], hp⟩
    · exact .fail _

theorem update_eof {expr : ExprParser} {lhs : NodeId} {operator : Token}
    (h : operator.kind = .eof) :
    update expr lhs operator = fail
      ⟨.unexpectedBecause operator.value "expected assignment or call", operator.span.start⟩ := by
  unfold update
  rw [h]
  rfl

theorem laysFirst_assignOrCall (h : LaysExpr ts inner.expr) :
    LaysFirst ts (fun id => [id]) (assignOrCall inner) := by
  intro i
  refine .first fun token hToken => Neat.still.bind fun b => .ite ?_ ?_
  · refine (h.callArgs _ _).bind fun args => Neat.still.bind fun _ => ?_
    exact neat_pushFirst hToken
  refine Neat.still.bind fun n => (lays_indices h n _ _).bind fun ids => ?_
  dsimp only
  refine .ite (Neat.still.bind ?rest) (Neat.still.bind ?rest)
  refine fun called => .ite ?_ ?_
  · refine (neat_pushFirst hToken).strengthen ?_
    exact fun p hp => { hp with laid := hp.laid.le }
  refine (neat_pushFirst hToken).bind fun lhs => ?_
  have hRest : ∀ operator, Neat ts (Since ts i [lhs])
      (update inner.expr lhs operator >>= fun k =>
        expectSymbol .semicolon >>= fun _ => pushFrom token.span.start k)
      fun id => Since ts i [id] := by
    refine fun operator => (neat_update h lhs operator).bind fun k => ?_
    intro p q id hRun ⟨hSome, hPre⟩
    have hLast : Neat ts (Since ts i k.children)
        (expectSymbol .semicolon >>= fun _ => pushFrom token.span.start k)
        fun id => Since ts i [id] :=
      Neat.still.bind fun _ => neat_pushFrom hToken (Nat.le_refl i) (.inr hSome)
    exact hLast p q id hRun hPre
  intro p q id hRun hPre
  by_cases hEnd : p.kind = .eof
  · obtain ⟨operator, r, hAdvance, hNext⟩ := bind_eq_ok hRun
    cases hAdvance
    obtain ⟨k, r, hFail, -⟩ := bind_eq_ok hNext
    rw [update_eof hEnd] at hFail
    cases hFail
  · exact Neat.skip hRest p q id hRun ⟨hPre, hEnd⟩

/-! ### Whole statements and blocks -/

theorem laysFirst_form (h : LaysInner ts inner) (kind : Form) :
    LaysFirst ts Option.toList (form inner kind) := by
  intro i
  cases kind with
  | varDecl => exact (laysFirst_varDecl h.expr i).map fun _ _ hp => hp
  | callableDef => exact (laysFirst_callableDef h i).map fun _ _ hp => hp
  | subDef => exact (laysFirst_subDef h i).map fun _ _ hp => hp
  | entryRoutine => exact (laysFirst_entryRoutine h i).map fun _ _ hp => hp
  | header => exact (laysFirst_header i).map fun _ _ hp => hp
  | ifElse => exact (laysFirst_ifElse h i).map fun _ _ hp => hp
  | loop => exact (laysFirst_loop h i).map fun _ _ hp => hp
  | times => exact (laysFirst_times h i).map fun _ _ hp => hp
  | whileLoop => exact (laysFirst_whileLoop h i).map fun _ _ hp => hp
  | ascent => exact (laysFirst_ascent h i).map fun _ _ hp => hp
  | alternative => exact (laysFirst_alternative h i).map fun _ _ hp => hp
  | localBlock => exact (laysFirst_localBlock h i).map fun _ _ hp => hp
  | returnStmt => exact (laysFirst_returnStmt h.expr i).map fun _ _ hp => hp
  | yieldStmt => exact (laysFirst_wordStmt rfl i).map fun _ _ hp => hp
  | breakStmt => exact (laysFirst_wordStmt rfl i).map fun _ _ hp => hp
  | assignOrCall => exact (laysFirst_assignOrCall h.expr i).map fun _ _ hp => hp
  | nop => exact (laysFirst_nop i).map fun _ _ hp => hp

theorem lays_stmtWith (h : LaysInner ts inner) : Lays ts Option.toList (stmtWith inner) := by
  refine .intro fun i => .look fun found => ?_
  cases found with
  | none => exact fun _ _ _ hRun => by cases hRun
  | some kind =>
    refine (laysFirst_form h kind i).strengthen fun p hp => ?_
    exact ⟨hp.1.1, hp.1.2, Parser.ne_eof_of_form? hp.2⟩

theorem lays_stmts (h : LaysInner ts inner) (stop : Parser → Bool) (n : Nat) :
    Lays ts (fun ids => ids) (stmts inner stop n) := by
  induction n with
  | zero => exact fun lo ids => .pure fun p hp => by simpa using hp
  | succ n ih =>
    intro lo ids
    refine Neat.still.bind fun b => .ite ?_ (.pure fun p hp => by simpa using hp)
    refine (lays_stmtWith h lo ids).bind fun stmt => (ih lo _).bind fun rest => ?_
    exact .pure fun p hp => by simpa using hp

theorem lays_blockWith [∀ power, Runs Onward (inner.expr power)]
    [∀ decls, Runs Onward (inner.block decls)] (h : LaysInner ts inner) (decls : List NodeId) :
    Lays ts (fun id => [id]) (blockWith inner decls) := by
  refine .intro fun i p q id hRun ⟨hPre, hPos⟩ => ?_
  obtain ⟨s, r, ids, hOpen, -, hDecls, hStmts, hClose, -, hPush⟩ := blockWith_eq_ok hRun
  have hToken : ts[i]? = some p.current := hPos ▸ hPre.token
  have hIn : Since ts (i + 1) [] p.inBlock := by
    refine ⟨hPre.tokens, ⟨hPre.proper.grammar, hPre.proper.ends⟩, ?_, ?_⟩
    · exact hPre.tokens ▸ inside_advanced hPre.proper (by simp [hOpen])
    · exact Nat.succ_le_succ hPos.ge
  have hIdle : Runs Idle (decls.forM fun id => do let _ ← declareExisting id) :=
    runs_forM (fun _ => inferInstance) decls
  obtain ⟨hNone, hDeclared⟩ := Neat.still p.inBlock s () hDecls hIn
  obtain ⟨hNodes, hRow⟩ := lays_stmts h _ _ _ _ s r ids hStmts hDeclared
  have hBehind : Since ts (i + 1) ids (r.behindBlock p.table p.outer) := by
    refine ⟨hRow.tokens, ⟨hRow.proper.grammar, hRow.proper.ends⟩, ?_, ?_⟩
    · exact hRow.tokens ▸ inside_advanced hRow.proper (by simp [hClose])
    · exact hRow.laid.raise (Nat.le_succ _)
  obtain ⟨hBlock, hLast⟩ :=
    neat_pushFirst (k := .block ids r.table) hToken _ q id hPush hBehind
  exact ⟨(hNone.trans hNodes).trans hBlock, hLast⟩

theorem laysInner (levels : Nat) : LaysInner ts ⟨exprAt levels, blockAt levels⟩ := by
  refine ⟨laysExpr_exprAt levels, ?_⟩
  induction levels with
  | zero =>
    intro decls lo ids
    exact Neat.still.bind fun _ => fun _ _ _ hRun => by cases hRun
  | succ levels ih => exact fun decls => lays_blockWith ⟨laysExpr_exprAt levels, ih⟩ decls

end Statements

end Parse

end StageScript

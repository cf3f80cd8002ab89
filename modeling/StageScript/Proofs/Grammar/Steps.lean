import StageScript.Proofs.Grammar.Derives

/-!
# Words that a parser takes

`Took p w q` says that a parser went from `p` to `q` by taking the word `w`: nothing but the
place in the tokens and the tree changed, and the tree only grew.  Since the last token is
the end of the source and no expression takes it, every token that is taken stands in the
source.
-/

namespace StageScript

namespace Parser

def left (p : Parser) : List Token := p.tokens.toList.drop p.pos

structure Proper (p : Parser) : Prop where
  grammar : p.knowsGrammar = true
  ends : ∃ before last, p.tokens.toList = before ++ [last] ∧ last.kind = .eof

variable {p : Parser}

theorem lt_size_of_left {token : Token} {rest : List Token} (h : p.left = token :: rest) :
    p.pos < p.tokens.size := by
  have hlt : p.pos < p.tokens.toList.length := by
    refine Nat.lt_of_not_le fun hle => ?_
    rw [left, List.drop_eq_nil_of_le hle] at h
    cases h
  simpa using hlt

/-- The current token is the first of those left. -/
theorem current_of_left {token : Token} {rest : List Token} (h : p.left = token :: rest) :
    p.current = token := by
  have hlt := lt_size_of_left h
  have hMin : min p.pos (p.tokens.size - 1) = p.pos := by omega
  have hGet : p.tokens.toList[p.pos]? = some token := by
    rw [← List.head?_drop, show p.tokens.toList.drop p.pos = _ from h, List.head?_cons]
  rw [current, hMin, ← Array.getElem?_toList, hGet]
  rfl

theorem kind_of_left {token : Token} {rest : List Token} (h : p.left = token :: rest) :
    p.kind = token.kind := by
  rw [kind, current_of_left h]

theorem left_advanced {token : Token} {rest : List Token} (h : p.left = token :: rest) :
    p.advanced.left = rest := by
  rw [left, advanced, ← List.drop_drop, show p.tokens.toList.drop p.pos = _ from h]
  rfl

/-- A token that is not the end of the source is still left. -/
theorem Proper.left_of_kind (h : p.Proper) (hk : p.kind ≠ .eof) :
    ∃ rest, p.left = p.current :: rest := by
  obtain ⟨before, last, hTokens, hLast⟩ := h.ends
  have hSize : p.tokens.size = before.length + 1 := by
    rw [← Array.length_toList, hTokens, List.length_append, List.length_singleton]
  cases hLeft : p.left with
  | cons token rest => exact ⟨rest, by rw [current_of_left hLeft]⟩
  | nil =>
    have hPast : p.tokens.size ≤ p.pos := by
      have hle := List.drop_eq_nil_iff.mp (show p.tokens.toList.drop p.pos = [] from hLeft)
      simpa using hle
    have hMin : min p.pos (p.tokens.size - 1) = before.length := by omega
    refine absurd ?_ hk
    rw [kind, current, hMin, ← Array.getElem?_toList, hTokens, List.getElem?_concat_length]
    exact hLast

theorem Proper.inside (h : p.Proper) : Proper { p with nesting := p.nesting + 1 } :=
  ⟨h.grammar, h.ends⟩

end Parser

/-- The parser took the word `w` and did nothing else but add to the tree. -/
structure Took (p : Parser) (w : List Token) (q : Parser) : Prop where
  tokens : q.tokens = p.tokens
  grammar : q.knowsGrammar = p.knowsGrammar
  nesting : q.nesting = p.nesting
  pos : q.pos = p.pos + w.length
  left : p.left = w ++ q.left
  tree : p.tree.Extends q.tree

namespace Took

variable {p q r : Parser} {v w : List Token}

theorem refl (p : Parser) : Took p [] p := ⟨rfl, rfl, rfl, rfl, rfl, .refl _⟩

theorem trans (h : Took p v q) (g : Took q w r) : Took p (v ++ w) r where
  tokens := g.tokens.trans h.tokens
  grammar := g.grammar.trans h.grammar
  nesting := g.nesting.trans h.nesting
  pos := by rw [g.pos, h.pos, List.length_append, Nat.add_assoc]
  left := by rw [h.left, g.left, List.append_assoc]
  tree := h.tree.trans g.tree

theorem proper (h : Took p w q) (hp : p.Proper) : q.Proper :=
  ⟨h.grammar.trans hp.grammar, h.tokens ▸ hp.ends⟩

theorem pos_lt {token : Token} (h : Took p (token :: w) q) : p.pos < q.pos := by
  rw [h.pos, List.length_cons]
  omega

theorem left_eq {rest : List Token} (h : Took p w q) (hLeft : p.left = w ++ rest) :
    q.left = rest :=
  List.append_cancel_left (h.left.symm.trans hLeft)

/-- What is taken stands in the source. -/
theorem pos_le (h : Took p w q) (hw : w ≠ []) : q.pos ≤ p.tokens.size := by
  have hLength := congrArg List.length h.left
  rw [Parser.left, Parser.left, List.length_append, List.length_drop, List.length_drop, h.tokens,
    Array.length_toList, h.pos] at hLength
  have hPos : 0 < w.length := List.length_pos_iff.mpr hw
  rw [h.pos]
  omega

/-- What is taken one level deeper is taken. -/
theorem inside (h : Took { p with nesting := p.nesting + 1 } w q) :
    Took p w { q with nesting := q.nesting - 1 } :=
  ⟨h.tokens, h.grammar, by simp [h.nesting], h.pos, h.left, h.tree⟩

/-- One more node. -/
theorem push (h : Took p w q) (node : Node) : Took p w { q with tree := q.tree.push node } :=
  { h with tree := h.tree.trans (.push _ _) }

theorem advance {token : Token} {rest : List Token} (h : p.left = token :: rest) :
    Took p [token] p.advanced :=
  ⟨rfl, rfl, rfl, rfl, by rw [Parser.left_advanced h, h]; rfl, .refl _⟩

theorem advance_of_kind (h : p.Proper) (hk : p.kind ≠ .eof) : Took p [p.current] p.advanced := by
  obtain ⟨rest, hLeft⟩ := h.left_of_kind hk
  exact advance hLeft

theorem advance_of_symbol (h : p.Proper) {s : Symbol} (hk : p.kind = .symbol s) :
    Took p [p.current] p.advanced :=
  advance_of_kind h (by rw [hk]; nofun)

end Took

def Stops (c : Power) (token : Token) : Prop :=
  ∀ tail t, Operator.ofKind? token.kind = some (tail, t) → t.rank ≤ c.rank

theorem Stops.of_rank_le {c t : Power} {token : Token} (h : Stops c token)
    (hc : c.rank ≤ t.rank) : Stops t token :=
  fun tail u hu => Nat.le_trans (h tail u hu) hc

namespace Parse

variable {α β : Type}

theorem advance_of_left {p : Parser} {token : Token} {rest : List Token}
    (h : p.left = token :: rest) : advance p = .ok token p.advanced := by
  rw [advance, Parser.current_of_left h]

theorem expectSymbol_of_kind {s : Symbol} {p : Parser} (h : p.kind = .symbol s) :
    expectSymbol s p = .ok () p.advanced := by
  have hExpect : expect (.symbol s) p = .ok p.current p.advanced := by
    change expectOr _ _ p = _
    rw [expectOr, if_pos h]
  rw [expectSymbol, bind_of_ok hExpect]
  rfl

theorem expectSymbol_eq_ok {s : Symbol} {p q : Parser} {u : Unit}
    (h : expectSymbol s p = .ok u q) : p.kind = .symbol s ∧ q = p.advanced := by
  obtain ⟨token, r, hExpect, hEnd⟩ := bind_eq_ok h
  change expectOr _ _ p = _ at hExpect
  rw [expectOr] at hExpect
  split at hExpect
  · cases hExpect
    cases hEnd
    exact ⟨‹_›, rfl⟩
  · cases hExpect

theorem nested_eq_ok {step : Parse α} {p q : Parser} {a : α} (h : nested step p = .ok a q) :
    p.nesting < maxNesting ∧ ∃ r, step { p with nesting := p.nesting + 1 } = .ok a r ∧
      q = { r with nesting := r.nesting - 1 } := by
  obtain ⟨u, p', hEnter, h⟩ := bind_eq_ok h
  rw [enter] at hEnter
  split at hEnter
  · cases hEnter
  · cases hEnter
    refine ⟨by omega, ?_⟩
    split at h
    · cases h
      exact ⟨_, ‹_›, rfl⟩
    · cases h

theorem nested_of_ok {step : Parse α} {p q : Parser} {a : α} (hp : p.nesting < maxNesting)
    (h : step { p with nesting := p.nesting + 1 } = .ok a q) :
    nested step p = .ok a { q with nesting := q.nesting - 1 } := by
  have hEnter : enter p = .ok () { p with nesting := p.nesting + 1 } :=
    if_neg (Nat.not_le_of_lt hp)
  refine (bind_of_ok hEnter _).trans ?_
  simp only [h]
  rfl

/-- A new node is the last of the tree. -/
theorem pushFrom_eq_ok {start : Position} {kind : NodeKind} {p q : Parser} {id : NodeId}
    (h : pushFrom start kind p = .ok id q) :
    ∃ span, q = { p with tree := p.tree.push ⟨kind, span⟩ } ∧ q.tree.kind? id = some kind := by
  cases h
  exact ⟨_, rfl, Tree.kind?_push_size _ _⟩

theorem pushAfter_eq_ok {left right : NodeId} {kind : NodeKind} {p q : Parser} {id : NodeId}
    (h : pushAfter left right kind p = .ok id q) :
    ∃ span, q = { p with tree := p.tree.push ⟨kind, span⟩ } ∧ q.tree.kind? id = some kind := by
  cases h
  exact ⟨_, rfl, Tree.kind?_push_size _ _⟩

theorem push_eq_ok {span : Span} {kind : NodeKind} {p q : Parser} {id : NodeId}
    (h : push kind span p = .ok id q) :
    q = { p with tree := p.tree.push ⟨kind, span⟩ } ∧ q.tree.kind? id = some kind := by
  cases h
  exact ⟨rfl, Tree.kind?_push_size _ _⟩

/-- The node of a literal shows what its token denotes. -/
theorem denotes_of_literalKind {token : Token} {kind : NodeKind}
    (h : literalKind token = .ok kind) :
    ∃ e, Denotes token e ∧ ∀ t : Tree, ∀ id, t.kind? id = some kind → Shows t id e := by
  rw [literalKind] at h
  split at h
  · rename_i hk
    split at h
    · cases h
      exact ⟨_, .num hk ‹_›, fun t id => .num⟩
    · cases h
  · rename_i hk
    split at h
    · cases h
      exact ⟨_, .char hk ‹_›, fun t id => .char⟩
    · cases h
  · cases h
    exact ⟨_, .str ‹_›, fun t id => .str⟩
  · cases h

theorem literalKind_of_denotes {token : Token} {e : Expr} (h : Denotes token e) :
    ∃ kind, literalKind token = .ok kind ∧ ∀ t : Tree, ∀ id, t.kind? id = some kind → Shows t id e := by
  cases h with
  | num hk hv => exact ⟨_, by rw [literalKind, hk]; simp only [hv], fun t id => .num⟩
  | char hk hv => exact ⟨_, by rw [literalKind, hk]; simp only [hv], fun t id => .char⟩
  | str hk => exact ⟨_, by rw [literalKind, hk], fun t id => .str⟩

/-! ### The head and the loop of operators -/

variable {expr : ExprParser} {power : Power} {rounds : Nat} {left : NodeId} {p : Parser}

theorem exprWith_eq (hp : p.Proper) : exprWith expr power p =
    (match Head.ofKind? p.kind with
      | none => unexpected "expected an expression"
      | some kind => head expr kind >>= fun left q => extend expr power q.rounds left q
        : Parse NodeId) p := by
  have hHead : p.head? p.kind = Head.ofKind? p.kind := by
    rw [Parser.head?, hp.grammar]
    rfl
  rw [← hHead]
  rfl

theorem extend_eq (hp : p.Proper) : extend expr power (rounds + 1) left p =
    extendBy expr power left (extend expr power rounds) (Operator.ofKind? p.kind) p := by
  have hOperator : p.operator? p.kind = Operator.ofKind? p.kind := if_pos hp.grammar
  rw [extend_succ, ← hOperator]
  rfl

theorem extend_of_stops (hp : p.Proper) (h : Stops power p.current) :
    extend expr power (rounds + 1) left p = .ok left p := by
  rw [extend_eq hp]
  cases ht : Operator.ofKind? p.kind with
  | none => rfl
  | some next => exact congrFun (if_pos (h next.1 next.2 ht)) p

theorem extend_of_tail (hp : p.Proper) {kind : Tail} {t : Power}
    (ht : Operator.ofKind? p.kind = some (kind, t)) (hPower : power.rank < t.rank) :
    extend expr power (rounds + 1) left p =
      (tail expr left t kind >>= extend expr power rounds) p := by
  rw [extend_eq hp, ht]
  exact congrFun (if_neg (Nat.not_le_of_lt hPower)) p

end Parse

end StageScript

import StageScript.Proofs.Grammar.Steps

/-!
# What is parsed is derived

If the parser of expressions replies with a node, the grammar derives the word that it took,
with the tree that the node shows.  Each rule is shown to keep this for a parser of inner
expressions that does (`ExprParser.Sound`); the loop that extends an expression by operators
keeps the layer of what it has so far, and knows that the next operator is no tighter than
this layer allows (`Reached`).
-/

namespace StageScript

def Found (n : Nat) (c : Power) (p : Parser) (id : NodeId) (q : Parser) : Prop :=
  ∃ w e, Took p w q ∧ Derives n c w e ∧ Shows q.tree id e

theorem Found.loosen {n : Nat} {c t : Power} {p q : Parser} {id : NodeId} (h : Found n c p id q)
    (ht : t.rank ≤ c.rank) : Found n t p id q := by
  obtain ⟨w, e, hTook, hDerives, hShows⟩ := h
  exact ⟨w, e, hTook, hDerives.loosen ht, hShows⟩

namespace Parse

/-- Every node that the parser replies with is that of a derived word, at most `n - 1` deep,
and no tighter operator follows. -/
def ExprParser.Sound (n : Nat) (expr : ExprParser) : Prop :=
  ∀ {c : Power} {p q : Parser} {id : NodeId}, c.rank ≤ 6 → p.Proper → expr c p = .ok id q →
    (∃ m < n, Found m c.operand p id q) ∧ Stops c q.current

variable {n : Nat} {expr : ExprParser} {p q : Parser} {id : NodeId}

/-! ### Lists -/

def FoundAll (n : Nat) (p : Parser) (ids : List NodeId) (q : Parser) : Prop :=
  ∃ (items : List Item) (w : List Token), Took p w q ∧ Listed (items.map Item.word) w ∧
    (∀ i ∈ items, i.depth < n) ∧ (∀ i ∈ items, Derives i.depth .logicalOr i.word i.expr) ∧
    List.Forall₂ (Shows q.tree) ids (items.map Item.expr)

theorem foundAll_commaItems (hExpr : expr.Sound n) {close : TokenKind} {rounds : Nat}
    {ids : List NodeId} (hp : p.Proper)
    (h : commaItems close (expr .lowest) rounds p = .ok ids q) : FoundAll n p ids q := by
  induction rounds generalizing p ids with
  | zero =>
    cases h
    exact ⟨[], [], .refl _, .nil, nofun, nofun, .nil⟩
  | succ rounds ih =>
    rw [commaItems] at h
    obtain ⟨atClose, r, hAt, h⟩ := bind_eq_ok h
    cases hAt
    split at h
    · cases h
      exact ⟨[], [], .refl _, .nil, nofun, nofun, .nil⟩
    · obtain ⟨id, r, hItem, h⟩ := bind_eq_ok h
      obtain ⟨⟨m, hm, w, e, hTook, hDerives, hShows⟩, -⟩ := hExpr (by decide) hp hItem
      obtain ⟨more, r', hEat, h⟩ := bind_eq_ok h
      rw [eat] at hEat
      split at hEat
      · rename_i hComma
        cases hEat
        obtain ⟨rest, r', hRest, h⟩ := bind_eq_ok h
        cases h
        have hr := hTook.proper hp
        have hAdvance := Took.advance_of_symbol hr hComma
        obtain ⟨items, v, hTook', hListed, hDepth, hItems, hAll⟩ := ih (hAdvance.proper hr) hRest
        refine ⟨⟨w, e, m⟩ :: items, w ++ r.current :: v, hTook.trans (hAdvance.trans hTook'),
          .cons hComma hListed, ?_, ?_, .cons (hShows.mono (hAdvance.trans hTook').tree) hAll⟩
        · exact List.forall_mem_cons.mpr ⟨hm, hDepth⟩
        · exact List.forall_mem_cons.mpr ⟨hDerives, hItems⟩
      · cases hEat
        cases h
        exact ⟨[⟨w, e, m⟩], w, hTook, .last, List.forall_mem_singleton.mpr hm,
          List.forall_mem_singleton.mpr hDerives, .cons hShows .nil⟩

/-- A list up to its closing symbol. -/
theorem foundAll_commaList (hExpr : expr.Sound n) {close : Symbol} {ids : List NodeId}
    (hp : p.Proper) (h : commaList close (expr .lowest) p = .ok ids q) :
    ∃ r, FoundAll n p ids r ∧ r.kind = .symbol close ∧ q = r.advanced := by
  obtain ⟨rounds, p', hRounds, h⟩ := bind_eq_ok h
  cases hRounds
  obtain ⟨items, r, hItems, h⟩ := bind_eq_ok h
  obtain ⟨u, r', hClose, h⟩ := bind_eq_ok h
  obtain ⟨hKind, rfl⟩ := expectSymbol_eq_ok hClose
  cases h
  exact ⟨r, foundAll_commaItems hExpr hp hItems, hKind, rfl⟩

/-! ### Heads -/

theorem found_literal (hp : p.Proper) (hk : p.kind ≠ .eof) (h : literal p = .ok id q) :
    Found n .primary p id q := by
  obtain ⟨token, r, hAdvance, h⟩ := bind_eq_ok h
  cases hAdvance
  cases hKind : literalKind p.current with
  | ok kind =>
    obtain ⟨e, hDenotes, hShows⟩ := denotes_of_literalKind hKind
    simp only [hKind] at h
    obtain ⟨rfl, hNew⟩ := push_eq_ok h
    exact ⟨_, e, (Took.advance_of_kind hp hk).push _, .literal hDenotes, hShows _ _ hNew⟩
  | error cause =>
    simp only [hKind] at h
    cases h

theorem found_name (hExpr : expr.Sound n) (hp : p.Proper) (hk : p.kind = .identifier)
    (h : name expr p = .ok id q) : Found n .primary p id q := by
  have hFirst := Took.advance_of_kind hp (by rw [hk]; decide)
  obtain ⟨token, r, hAdvance, h⟩ := bind_eq_ok h
  cases hAdvance
  obtain ⟨atOpen, r, hAt, h⟩ := bind_eq_ok h
  cases hAt
  split at h
  · obtain ⟨ids, r, hArgs, h⟩ := bind_eq_ok h
    obtain ⟨u, r', hExpect, hArgs⟩ := bind_eq_ok hArgs
    obtain ⟨hOpen, rfl⟩ := expectSymbol_eq_ok hExpect
    have hSecond := Took.advance_of_symbol (hFirst.proper hp) hOpen
    have hBefore := hFirst.trans hSecond
    obtain ⟨r', hAll, hClose, rfl⟩ := foundAll_commaList hExpr (hBefore.proper hp) hArgs
    obtain ⟨items, w, hTook, hListed, hDepth, hItems, hShows⟩ := hAll
    have hAfter := hBefore.trans hTook
    have hLast := hAfter.trans (Took.advance_of_symbol (hAfter.proper hp) hClose)
    obtain ⟨span, rfl, hNew⟩ := pushFrom_eq_ok h
    obtain ⟨hLength, hZip⟩ := shows_zip (forall₂_mono (.push r'.tree _) hShows)
    refine ⟨_, _, hLast.push _, ?_, .call hNew hLength hZip⟩
    simpa using Derives.call hk hOpen hListed hDepth hItems hClose
  · obtain ⟨rfl, hNew⟩ := push_eq_ok h
    exact ⟨_, _, hFirst.push _, .ref hk, .ref hNew⟩

theorem found_array (hExpr : expr.Sound n) (hp : p.Proper)
    (hk : p.kind = .symbol .openBracket) (h : arrayLiteral expr p = .ok id q) :
    Found n .primary p id q := by
  have hFirst := Took.advance_of_symbol hp hk
  obtain ⟨token, r, hAdvance, h⟩ := bind_eq_ok h
  cases hAdvance
  obtain ⟨ids, r, hElems, h⟩ := bind_eq_ok h
  obtain ⟨r', hAll, hClose, rfl⟩ := foundAll_commaList hExpr (hFirst.proper hp) hElems
  obtain ⟨items, w, hTook, hListed, hDepth, hItems, hShows⟩ := hAll
  have hAfter := hFirst.trans hTook
  have hLast := hAfter.trans (Took.advance_of_symbol (hAfter.proper hp) hClose)
  obtain ⟨span, rfl, hNew⟩ := pushFrom_eq_ok h
  obtain ⟨hLength, hZip⟩ := shows_zip (forall₂_mono (.push r'.tree _) hShows)
  refine ⟨_, _, hLast.push _, ?_, .array hNew hLength hZip⟩
  simpa using Derives.array hk hListed hDepth hItems hClose

/-- An expression between an opening token and a closing symbol. -/
theorem found_between (hExpr : expr.Sound n) (hp : p.Proper) {opening close : Symbol}
    (hk : p.kind = .symbol opening) {r : Parser} (hInner : expr .lowest p.advanced = .ok id r)
    (hClose : r.kind = .symbol close) :
    ∃ m < n, ∃ w e, Took p (p.current :: (w ++ [r.current])) r.advanced ∧
      Derives m .logicalOr w e ∧ Shows r.tree id e := by
  have hFirst := Took.advance_of_symbol hp hk
  obtain ⟨⟨m, hm, w, e, hTook, hDerives, hShows⟩, -⟩ := hExpr (by decide) (hFirst.proper hp) hInner
  have hAfter := hFirst.trans hTook
  have hLast := hAfter.trans (Took.advance_of_symbol (hAfter.proper hp) hClose)
  exact ⟨m, hm, w, e, by simpa using hLast, hDerives, hShows⟩

theorem found_group (hExpr : expr.Sound n) (hp : p.Proper) (hk : p.kind = .symbol .openParen)
    (h : group expr p = .ok id q) : Found n .primary p id q := by
  obtain ⟨token, r, hAdvance, h⟩ := bind_eq_ok h
  cases hAdvance
  obtain ⟨inner, r, hInner, h⟩ := bind_eq_ok h
  obtain ⟨u, r', hExpect, h⟩ := bind_eq_ok h
  obtain ⟨hClose, rfl⟩ := expectSymbol_eq_ok hExpect
  cases h
  obtain ⟨m, hm, w, e, hTook, hDerives, hShows⟩ :=
    found_between hExpr hp hk hInner hClose
  exact ⟨_, e, hTook, .group hk hm hDerives hClose, hShows⟩

theorem found_absolute (hExpr : expr.Sound n) (hp : p.Proper) (hk : p.kind = .symbol .openAbs)
    (h : absolute expr p = .ok id q) : Found n .primary p id q := by
  obtain ⟨token, r, hAdvance, h⟩ := bind_eq_ok h
  cases hAdvance
  obtain ⟨inner, r, hInner, h⟩ := bind_eq_ok h
  obtain ⟨u, r', hExpect, h⟩ := bind_eq_ok h
  obtain ⟨hClose, rfl⟩ := expectSymbol_eq_ok hExpect
  obtain ⟨m, hm, w, e, hTook, hDerives, hShows⟩ :=
    found_between hExpr hp hk hInner hClose
  obtain ⟨span, rfl, hNew⟩ := pushFrom_eq_ok h
  exact ⟨_, _, hTook.push _, .absolute hk hm hDerives hClose,
    .unary hNew (hShows.mono (.push _ _))⟩

theorem found_sign (hExpr : expr.Sound n) (hp : p.Proper)
    (hk : p.kind = .symbol .dash ∨ p.kind = .symbol .bang) (h : sign expr p = .ok id q) :
    Found n .unary p id q ∧ Stops .unary q.current := by
  obtain ⟨s, op, hSign, hKind, hOp⟩ : ∃ s op, (s, op) ∈ signs ∧ p.kind = .symbol s ∧
      (if p.current.kind = .symbol .bang then UnaryOp.not else UnaryOp.neg) = op := by
    rcases hk with hk | hk
    · exact ⟨.dash, .neg, by decide, hk, if_neg (by rw [show p.current.kind = _ from hk]; decide)⟩
    · exact ⟨.bang, .not, by decide, hk, if_pos hk⟩
  have hFirst := Took.advance_of_symbol hp hKind
  obtain ⟨token, r, hAdvance, h⟩ := bind_eq_ok h
  cases hAdvance
  obtain ⟨operand, r, hOperand, h⟩ := bind_eq_ok h
  obtain ⟨⟨m, hm, w, e, hTook, hDerives, hShows⟩, hStops⟩ :=
    hExpr (by decide) (hFirst.proper hp) hOperand
  rw [hOp] at h
  obtain ⟨span, rfl, hNew⟩ := pushFrom_eq_ok h
  refine ⟨⟨_, _, (hFirst.trans hTook).push _, .sign hSign hKind hm hDerives, ?_⟩, hStops⟩
  exact .unary hNew (hShows.mono (.push _ _))

/-- An expression starts with something that stands alone or with a sign. -/
theorem found_head (hExpr : expr.Sound n) (hp : p.Proper) {kind : Head}
    (hk : Head.ofKind? p.kind = some kind) (h : head expr kind p = .ok id q) :
    Found n .primary p id q ∨ (Found n .unary p id q ∧ Stops .unary q.current) := by
  cases kind with
  | literal =>
    refine Or.inl (found_literal hp ?_ h)
    rcases Head.ofKind?_cases hk with hk | hk | hk <;> rw [hk] <;> nofun
  | name => exact Or.inl (found_name hExpr hp (Head.ofKind?_cases hk) h)
  | array => exact Or.inl (found_array hExpr hp (Head.ofKind?_cases hk) h)
  | group => exact Or.inl (found_group hExpr hp (Head.ofKind?_cases hk) h)
  | absolute => exact Or.inl (found_absolute hExpr hp (Head.ofKind?_cases hk) h)
  | sign => exact Or.inr (found_sign hExpr hp (Head.ofKind?_cases hk) h)

/-! ### Tails -/

/-- From `p` to `q` the parser took an expression of the layer `c`, and goes on with
operators that bind tighter than `power`.  What stands alone can go on with any operator;
anything else was ended by an operator that is no tighter than itself. -/
structure Reached (n : Nat) (power c : Power) (p : Parser) (id : NodeId) (q : Parser) : Prop where
  found : Found n c p id q
  loose : power.operand.rank ≤ c.rank
  next : 8 ≤ c.rank ∨ (Stops c q.current ∧ Stops .unary q.current)

variable {power c t : Power} {r : Parser} {left : NodeId}

/-- An operator that is met is of the layer of its left side or looser, or follows what
stands alone. -/
theorem Reached.rank_le (h : Reached n power c p left q) {tail : Tail}
    (ht : Operator.ofKind? q.kind = some (tail, t)) :
    8 ≤ c.rank ∨ (t.rank ≤ c.rank ∧ t.rank ≤ 6) := by
  rcases h.next with hTop | ⟨hOwn, hUnary⟩
  · exact Or.inl hTop
  · exact Or.inr ⟨hOwn tail t ht, hUnary tail t ht⟩

/-- An operator tighter than the signs follows something that it can be applied to. -/
theorem Reached.found_of_tight (h : Reached n power c p left q) {tail : Tail}
    (ht : Operator.ofKind? q.kind = some (tail, t)) (hRank : Power.unary.rank < t.rank) :
    Found n .index p left q := by
  refine h.found.loosen ?_
  rcases h.rank_le ht with hTop | ⟨-, hle⟩
  · exact hTop
  · exact absurd hle (Nat.not_le_of_lt hRank)

theorem reached_binary (hExpr : expr.Sound n) (hp : p.Proper) (h : Reached n power c p left q)
    {s : Symbol} {op : BinaryOp} (hs : (s, op) ∈ t.operators) (hk : q.kind = .symbol s)
    (hPower : power.rank < t.rank) (hTail : binary expr left t q = .ok id r) :
    Reached n power t p id r ∧ q.pos < r.pos := by
  obtain ⟨hRank, -⟩ := Power.rank_of_mem hs
  have hOp := Operator.ofKind?_of_mem hs
  have hLayer : t.rank ≤ c.rank := by
    rcases h.rank_le (hk ▸ hOp.1) with hTop | ⟨hle, -⟩
    · omega
    · exact hle
  obtain ⟨l, a, hTook, hDerives, hShows⟩ := h.found.loosen hLayer
  have hq := hTook.proper hp
  have hFirst := Took.advance_of_symbol hq hk
  obtain ⟨token, q', hAdvance, hTail⟩ := bind_eq_ok hTail
  cases hAdvance
  have hOpKind : BinaryOp.ofKind? q.current.kind = some op := by
    rw [show q.current.kind = _ from hk, hOp.2]
  simp only [hOpKind] at hTail
  obtain ⟨right, r', hRight, hTail⟩ := bind_eq_ok hTail
  obtain ⟨⟨m, hm, w, b, hTook', hDerives', hShows'⟩, hStops⟩ :=
    hExpr (by omega) (hFirst.proper hq) hRight
  obtain ⟨rfl, hNew⟩ := push_eq_ok hTail
  rw [Power.operand_of_mem hs] at hDerives'
  have hRest := hFirst.trans hTook'
  refine ⟨⟨⟨_, .binary op a b, (hTook.trans hRest).push _,
    .binary hs hk hDerives hm hDerives', ?_⟩, ?_, ?_⟩, hRest.pos_lt⟩
  · exact .binary hNew (hShows.mono (hRest.tree.trans (.push _ _))) (hShows'.mono (.push _ _))
  · exact Nat.le_trans power.rank_operand_le hPower
  · exact Or.inr ⟨hStops, Stops.of_rank_le hStops (Nat.le_succ_of_le hRank)⟩

theorem reached_exponent (hExpr : expr.Sound n) (hp : p.Proper) (h : Reached n power c p left q)
    (hk : q.kind = .symbol .caret) (hPower : power.rank < Power.exponent.rank)
    (hTail : exponent expr left q = .ok id r) :
    Reached n power .exponent p id r ∧ q.pos < r.pos := by
  have ht : _ = some (Tail.exponent, Power.exponent) := congrArg Operator.ofKind? hk
  obtain ⟨l, a, hTook, hDerives, hShows⟩ := h.found_of_tight ht (by decide)
  have hq := hTook.proper hp
  have hFirst := Took.advance_of_symbol hq hk
  obtain ⟨token, q', hAdvance, hTail⟩ := bind_eq_ok hTail
  cases hAdvance
  obtain ⟨right, r', hRight, hTail⟩ := bind_eq_ok hTail
  obtain ⟨⟨m, hm, w, b, hTook', hDerives', hShows'⟩, hStops⟩ :=
    hExpr (by decide) (hFirst.proper hq) hRight
  obtain ⟨rfl, hNew⟩ := push_eq_ok hTail
  have hRest := hFirst.trans hTook'
  refine ⟨⟨⟨_, .binary .pow a b, (hTook.trans hRest).push _,
    .power hk hDerives hm hDerives', ?_⟩, ?_, ?_⟩, hRest.pos_lt⟩
  · exact .binary hNew (hShows.mono (hRest.tree.trans (.push _ _))) (hShows'.mono (.push _ _))
  · exact Nat.le_trans power.rank_operand_le hPower
  · exact Or.inr ⟨Stops.of_rank_le hStops (by decide), hStops⟩

/-- What an index in brackets can be. -/
theorem index_eq_ok (h : index expr left q = .ok id r) :
    ∃ start s, expr .lowest q.advanced = .ok start s ∧
      ((s.kind = .symbol .closeBracket ∧
        pushAfter left start (.element left start) s.advanced = .ok id r) ∨
      (s.kind = .symbol .dots ∧ ∃ stop u bounds v, expr .lowest s.advanced = .ok stop u ∧
        push (.range start stop) (u.spanBetween start stop) u = .ok bounds v ∧
        v.kind = .symbol .closeBracket ∧
        pushAfter left bounds (.slice left bounds) v.advanced = .ok id r)) := by
  obtain ⟨token, q', hAdvance, h⟩ := bind_eq_ok h
  cases hAdvance
  obtain ⟨start, s, hStart, h⟩ := bind_eq_ok h
  refine ⟨start, s, hStart, ?_⟩
  obtain ⟨dots, s', hEat, h⟩ := bind_eq_ok h
  rw [eat] at hEat
  split at hEat
  · cases hEat
    rw [if_pos rfl] at h
    obtain ⟨stop, u, hStop, h⟩ := bind_eq_ok h
    obtain ⟨span, u', hSpan, h⟩ := bind_eq_ok h
    cases hSpan
    obtain ⟨bounds, v, hRange, h⟩ := bind_eq_ok h
    obtain ⟨_, v', hExpect, h⟩ := bind_eq_ok h
    obtain ⟨hClose, rfl⟩ := expectSymbol_eq_ok hExpect
    exact Or.inr ⟨‹_›, stop, u, bounds, v, hStop, hRange, hClose, h⟩
  · cases hEat
    rw [if_neg (by decide)] at h
    obtain ⟨_, s', hExpect, h⟩ := bind_eq_ok h
    obtain ⟨hClose, rfl⟩ := expectSymbol_eq_ok hExpect
    exact Or.inl ⟨hClose, h⟩

theorem found_element (hExpr : expr.Sound n) (hp : p.Proper) (h : Found n .index p left q)
    (hk : q.kind = .symbol .openBracket) {start : NodeId} {s : Parser}
    (hStart : expr .lowest q.advanced = .ok start s) (hClose : s.kind = .symbol .closeBracket)
    (hPush : pushAfter left start (.element left start) s.advanced = .ok id r) :
    Found n .index p id r ∧ q.pos < r.pos := by
  obtain ⟨l, a, hTook, hDerives, hShows⟩ := h
  obtain ⟨m, hm, w, b, hRest, hDerives', hShows'⟩ :=
    found_between hExpr (hTook.proper hp) hk hStart hClose
  obtain ⟨span, rfl, hNew⟩ := pushAfter_eq_ok hPush
  refine ⟨⟨_, .element a b, (hTook.trans hRest).push _,
    .element hDerives hk hm hDerives' hClose, ?_⟩, hRest.pos_lt⟩
  exact .element hNew (hShows.mono (hRest.tree.trans (.push _ _))) (hShows'.mono (.push _ _))

theorem found_slice (hExpr : expr.Sound n) (hp : p.Proper) (h : Found n .index p left q)
    (hk : q.kind = .symbol .openBracket) {start stop bounds : NodeId} {s u v : Parser}
    (hStart : expr .lowest q.advanced = .ok start s) (hDots : s.kind = .symbol .dots)
    (hStop : expr .lowest s.advanced = .ok stop u)
    (hRange : push (.range start stop) (u.spanBetween start stop) u = .ok bounds v)
    (hClose : v.kind = .symbol .closeBracket)
    (hPush : pushAfter left bounds (.slice left bounds) v.advanced = .ok id r) :
    Found n .index p id r ∧ q.pos < r.pos := by
  obtain ⟨l, a, hTook, hDerives, hShows⟩ := h
  have hq := hTook.proper hp
  obtain ⟨m, hm, w, b, hBefore, hDerives', hShows'⟩ := found_between hExpr hq hk hStart hDots
  obtain ⟨⟨k, hk', w', e, hTook', hDerives'', hShows''⟩, -⟩ :=
    hExpr (by decide) (hBefore.proper hq) hStop
  obtain ⟨rfl, hBounds⟩ := push_eq_ok hRange
  have hInside := (hBefore.trans hTook').push ⟨.range start stop, u.spanBetween start stop⟩
  have hRest := hInside.trans (Took.advance_of_symbol (hInside.proper hq) hClose)
  obtain ⟨span, rfl, hNew⟩ := pushAfter_eq_ok hPush
  have hLast := Tree.Extends.push (u.tree.push ⟨.range start stop, u.spanBetween start stop⟩)
    ⟨.slice left bounds, span⟩
  have hGrown := (Tree.Extends.push u.tree _).trans hLast
  have hStart' : Shows u.tree start b := hShows'.mono hTook'.tree
  refine ⟨⟨_, .slice a b e, (hTook.trans hRest).push _, ?_, ?_⟩, by simpa using hRest.pos_lt⟩
  · simpa using Derives.slice hDerives hk hm hDerives' hDots hk' hDerives'' hClose
  · exact .slice hNew (hLast.kind? hBounds) (hShows.mono (hRest.tree.trans hLast))
      (hStart'.mono hGrown) (hShows''.mono hGrown)

theorem reached_index (hExpr : expr.Sound n) (hp : p.Proper) (h : Reached n power c p left q)
    (hk : q.kind = .symbol .openBracket) (hPower : power.rank < Power.index.rank)
    (hTail : index expr left q = .ok id r) :
    Reached n power .index p id r ∧ q.pos < r.pos := by
  have ht : _ = some (Tail.index, Power.index) := congrArg Operator.ofKind? hk
  have hLeft := h.found_of_tight ht (by decide)
  have hLoose : power.operand.rank ≤ Power.index.rank := Nat.le_trans power.rank_operand_le hPower
  have hFound : Found n .index p id r ∧ q.pos < r.pos := by
    obtain ⟨start, s, hStart, ⟨hClose, hPush⟩ |
      ⟨hDots, stop, u, bounds, v, hStop, hRange, hClose, hPush⟩⟩ := index_eq_ok hTail
    · exact found_element hExpr hp hLeft hk hStart hClose hPush
    · exact found_slice hExpr hp hLeft hk hStart hDots hStop hRange hClose hPush
  exact ⟨⟨hFound.1, hLoose, Or.inl (by decide)⟩, hFound.2⟩

/-! ### The loop -/

/-- One more operator. -/
theorem reached_tail (hExpr : expr.Sound n) (hp : p.Proper) (h : Reached n power c p left q)
    {kind : Tail} (ht : Operator.ofKind? q.kind = some (kind, t)) (hPower : power.rank < t.rank)
    (hTail : tail expr left t kind q = .ok id r) :
    ∃ d, Reached n power d p id r ∧ q.pos < r.pos := by
  rcases Operator.ofKind?_cases ht with ⟨rfl, s, op, hs, hk⟩ | ⟨rfl, rfl, hk⟩ | ⟨rfl, rfl, hk⟩
  · exact ⟨t, reached_binary hExpr hp h hs hk hPower hTail⟩
  · exact ⟨_, reached_exponent hExpr hp h hk hPower hTail⟩
  · exact ⟨_, reached_index hExpr hp h hk hPower hTail⟩

theorem Reached.proper (h : Reached n power c p left q) (hp : p.Proper) : q.Proper := by
  obtain ⟨w, e, hTook, -⟩ := h.found
  exact hTook.proper hp

/-- All operators that bind tighter than `power`. -/
theorem reached_extend (hExpr : expr.Sound n) (hp : p.Proper) {rounds : Nat}
    (hRounds : p.tokens.size < rounds + q.pos) (h : Reached n power c p left q)
    (hExtend : extend expr power rounds left q = .ok id r) :
    (∃ d, Reached n power d p id r) ∧ Stops power r.current := by
  have hq := h.proper hp
  induction rounds generalizing c left q with
  | zero =>
    obtain ⟨w, e, hTook, hDerives, -⟩ := h.found
    have hle := hTook.pos_le hDerives.ne_nil
    omega
  | succ rounds ih =>
    by_cases hStops : Stops power q.current
    · rw [extend_of_stops hq hStops] at hExtend
      cases hExtend
      exact ⟨⟨c, h⟩, hStops⟩
    · obtain ⟨kind, t, ht, hPower⟩ : ∃ kind t, Operator.ofKind? q.kind = some (kind, t) ∧
          power.rank < t.rank := by
        simpa [Stops, Parser.kind] using hStops
      rw [extend_of_tail hq ht hPower] at hExtend
      obtain ⟨new, q', hTail, hExtend⟩ := bind_eq_ok hExtend
      obtain ⟨d, hNext, hPos⟩ := reached_tail hExpr hp h ht hPower hTail
      exact ih (by omega) hNext hExtend (hNext.proper hp)

/-! ### Whole expressions -/

theorem sound_exprWith (hExpr : expr.Sound n) : ExprParser.Sound (n + 1) (exprWith expr) := by
  intro power p q id hPower hp h
  cases hk : Head.ofKind? p.kind with
  | none =>
    rw [exprWith_eq hp, hk] at h
    cases h
  | some kind =>
    rw [exprWith_eq hp, hk] at h
    obtain ⟨left, r, hLeft, h⟩ := bind_eq_ok h
    obtain ⟨c, hReached⟩ : ∃ c, Reached n power c p left r := by
      have hLoose := Power.rank_operand_le_six hPower
      rcases found_head hExpr hp hk hLeft with hFound | ⟨hFound, hStops⟩
      · exact ⟨.primary, hFound, Nat.le_trans hLoose (by decide), Or.inl (by decide)⟩
      · exact ⟨.unary, hFound, hLoose, Or.inr ⟨hStops, hStops⟩⟩
    have hRounds : p.tokens.size < r.rounds + r.pos := by
      obtain ⟨w, e, hTook, -⟩ := hReached.found
      rw [Parser.rounds, hTook.tokens]
      omega
    obtain ⟨⟨d, hEnd⟩, hStops⟩ := reached_extend hExpr hp hRounds hReached h
    exact ⟨⟨n, Nat.lt_succ_self n, hEnd.found.loosen hEnd.loose⟩, hStops⟩

/-- What is parsed with `levels` levels of nesting left is nested less deep. -/
theorem sound_exprAt (levels : Nat) : ExprParser.Sound levels (exprAt levels) := by
  induction levels with
  | zero => exact fun _ _ h => nomatch h
  | succ levels ih =>
    intro power p q id hPower hp h
    obtain ⟨-, r, hStep, rfl⟩ := nested_eq_ok h
    obtain ⟨⟨m, hm, w, e, hTook, hDerives, hShows⟩, hStops⟩ :=
      sound_exprWith ih hPower hp.inside hStep
    exact ⟨⟨m, hm, w, e, hTook.inside, hDerives, hShows⟩, hStops⟩

end Parse

end StageScript

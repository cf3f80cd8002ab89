import StageScript.Proofs.Grammar.Steps

/-!
# What is derived is parsed

If the grammar derives a word with a tree, and the next token ends the expression, the parser
takes exactly this word and replies with a node that shows the tree.  A derivation is followed
along its left operands down to the head: there the parser starts, and every operator on the
way back is a round of the loop (`Opens`).  All other parts are left to the parser of inner
expressions (`ExprParser.Complete`).
-/

namespace StageScript

/-- An expression whose operators bind tighter than `c` ends before the token. -/
structure Closes (c : Power) (token : Token) : Prop where
  call : token.kind ≠ .symbol .openParen
  stops : Stops c token

def delimiters : List Symbol :=
  [.semicolon, .comma, .dots, .closeParen, .closeBracket, .closeAbs]

theorem closes_of_delimiter {token : Token} {s : Symbol} (hs : s ∈ delimiters)
    (hk : token.kind = .symbol s) (c : Power) : Closes c token := by
  have hAll : ∀ s ∈ delimiters, s ≠ .openParen ∧ Operator.ofKind? (.symbol s) = none := by decide
  obtain ⟨hCall, hTail⟩ := hAll s hs
  refine ⟨fun h => hCall ?_, fun tail t h => ?_⟩
  · rw [hk] at h
    exact TokenKind.symbol.inj h
  · rw [hk, hTail] at h
    cases h

structure Follows (c : Power) (token : Token) : Prop where
  call : token.kind ≠ .symbol .openParen
  next : 8 ≤ c.rank ∨ (Stops c token ∧ Stops .unary token)

theorem Closes.follows {power c : Power} {token : Token} (h : Closes power token)
    (hPower : power.rank ≤ 6) (hc : power.rank ≤ c.rank) : Follows c token :=
  ⟨h.call, Or.inr ⟨h.stops.of_rank_le hc, h.stops.of_rank_le hPower⟩⟩

theorem Follows.of_rank_le {c d : Power} {token : Token} (h : Follows c token)
    (hd : c.rank ≤ d.rank) : Follows d token :=
  ⟨h.call, h.next.imp (Nat.le_trans · hd) fun hNext => ⟨hNext.1.of_rank_le hd, hNext.2⟩⟩

theorem Follows.tighter {c : Power} {token : Token} (h : Follows c token) :
    Follows c.tighter token :=
  h.of_rank_le c.rank_le_tighter

/-- What follows a layer of operators ends its last operand. -/
theorem Follows.closes {c : Power} {token : Token} (h : Follows c token) (hc : c.rank < 8) :
    Closes c token ∧ Closes .unary token := by
  rcases h.next with hTop | ⟨hOwn, hUnary⟩
  · omega
  · exact ⟨⟨h.call, hOwn⟩, ⟨h.call, hUnary⟩⟩

/-- An operator of the layer or a looser one follows the layer. -/
theorem follows_of_tail {c t : Power} {token : Token} {kind : Tail}
    (ht : Operator.ofKind? token.kind = some (kind, t))
    (hc : 8 ≤ c.rank ∨ (t.rank ≤ c.rank ∧ t.rank ≤ 6)) : Follows c token := by
  have hStops : ∀ d : Power, t.rank ≤ d.rank → Stops d token := by
    intro d hd tail u hu
    rw [ht] at hu
    cases hu
    exact hd
  refine ⟨fun hk => ?_, hc.imp_right fun hle => ⟨hStops c hle.1, hStops .unary hle.2⟩⟩
  rw [hk] at ht
  cases ht

def Yields (step : Parse NodeId) (p : Parser) (w : List Token) (e : Expr) : Prop :=
  ∃ id q, step p = .ok id q ∧ Took p w q ∧ Shows q.tree id e

structure Roomy (n : Nat) (p : Parser) : Prop where
  proper : p.Proper
  levels : p.nesting + n ≤ maxNesting

theorem Took.roomy {n : Nat} {p q : Parser} {w : List Token} (h : Took p w q) (hp : Roomy n p) :
    Roomy n q :=
  ⟨h.proper hp.proper, by rw [h.nesting]; exact hp.levels⟩

namespace Parse

/-- With `n` levels left, the parser takes every derived word that is nested less deep. -/
def ExprParser.Complete (n : Nat) (expr : ExprParser) : Prop :=
  ∀ {m : Nat} {c : Power} {w rest : List Token} {e : Expr} {p : Parser} {next : Token}, m < n →
    c.rank ≤ 6 → Derives m c.operand w e → Roomy n p → p.left = w ++ next :: rest → Closes c next →
    Yields (expr c) p w e

variable {n m : Nat} {expr : ExprParser} {p : Parser} {w rest : List Token} {e : Expr}

/-- A step that adds a node adds to what was taken. -/
theorem exists_push {q : Parser} (h : Took p w q) (step : Parse NodeId) {kind : NodeKind}
    {span : Span} (hStep : step q = push kind span q) :
    ∃ id r, step q = .ok id r ∧ Took p w r ∧ q.tree.Extends r.tree ∧
      r.tree.kind? id = some kind :=
  ⟨_, _, hStep, h.push _, .push _ _, Tree.kind?_push_size _ _⟩

/-- A loop that has a round for every token left has one for the next token. -/
theorem exists_round {rounds : Nat} {token : Token} (hLeft : p.left = token :: rest)
    (hRounds : p.tokens.size < rounds + p.pos) : ∃ k, rounds = k + 1 := by
  have hlt := Parser.lt_size_of_left hLeft
  exact ⟨rounds - 1, by omega⟩

/-- An expression in front of a symbol that ends it. -/
theorem yields_inner (hExpr : expr.Complete n) (hm : m < n) (h : Derives m .logicalOr w e)
    (hp : Roomy n p) {next : Token} (hLeft : p.left = w ++ next :: rest) {s : Symbol}
    (hs : s ∈ delimiters) (hk : next.kind = .symbol s) :
    ∃ id q, expr .lowest p = .ok id q ∧ Took p w q ∧ Shows q.tree id e ∧ q.left = next :: rest := by
  obtain ⟨id, q, hRun, hTook, hShows⟩ :=
    hExpr (c := .lowest) hm (by decide) h hp hLeft (closes_of_delimiter hs hk _)
  exact ⟨id, q, hRun, hTook, hShows, hTook.left_eq hLeft⟩

/-- A derived word does not start with a symbol that ends expressions. -/
theorem kind_ne_of_derives {c : Power} (h : Derives m c w e) (hLeft : p.left = w ++ rest)
    {s : Symbol} (hs : s ∈ delimiters) : p.kind ≠ .symbol s := by
  have hAll : ∀ s ∈ delimiters, Head.ofKind? (.symbol s) = none := by decide
  obtain ⟨token, more, head, rfl, hHead⟩ := h.starts
  rw [Parser.kind_of_left hLeft]
  intro hk
  rw [hk, hAll s hs] at hHead
  cases hHead

/-! ### Lists -/

section CommaItems

variable {close : TokenKind} {item : Parse NodeId} {rounds : Nat} {q r : Parser} {id : NodeId}

theorem commaItems_of_close (hk : p.kind = close) :
    commaItems close item (rounds + 1) p = .ok [] p := by
  have hAt : atKind close p = .ok true p := congrArg (Reply.ok · p) (decide_eq_true hk)
  exact bind_of_ok hAt _

theorem commaItems_of_item (hk : p.kind ≠ close) (hItem : item p = .ok id q) :
    commaItems close item (rounds + 1) p = (do
      if ← eat (.symbol .comma) then
        return id :: (← commaItems close item rounds)
      return [id] : Parse (List NodeId)) q := by
  have hAt : atKind close p = .ok false p := congrArg (Reply.ok · p) (decide_eq_false hk)
  exact (bind_of_ok hAt _).trans (bind_of_ok hItem _)

theorem commaItems_of_last (hk : p.kind ≠ close) (hItem : item p = .ok id q)
    (hComma : q.kind ≠ .symbol .comma) : commaItems close item (rounds + 1) p = .ok [id] q := by
  have hEat : eat (.symbol .comma) q = .ok false q := if_neg hComma
  rw [commaItems_of_item hk hItem]
  exact bind_of_ok hEat _

theorem commaItems_of_comma (hk : p.kind ≠ close) (hItem : item p = .ok id q)
    (hComma : q.kind = .symbol .comma) {ids : List NodeId}
    (hRest : commaItems close item rounds q.advanced = .ok ids r) :
    commaItems close item (rounds + 1) p = .ok (id :: ids) r := by
  have hEat : eat (.symbol .comma) q = .ok true q.advanced := if_pos hComma
  rw [commaItems_of_item hk hItem]
  exact (bind_of_ok hEat _).trans (bind_of_ok hRest _)

end CommaItems

/-- The rounds of a list reach its closing symbol. -/
theorem commaItems_of_listed (hExpr : expr.Complete n) {close : Symbol} {closing : Token}
    (hDelimiter : close ∈ delimiters) (hComma : close ≠ .comma)
    (hClose : closing.kind = .symbol close) {rounds : Nat} (hp : Roomy n p)
    (hRounds : p.tokens.size < rounds + p.pos) {items : List Item} {ws : List (List Token)}
    (hListed : Listed ws w) (hWords : items.map Item.word = ws)
    (hDepth : ∀ i ∈ items, i.depth < n)
    (hItems : ∀ i ∈ items, Derives i.depth .logicalOr i.word i.expr)
    (hLeft : p.left = w ++ closing :: rest) :
    ∃ ids q, commaItems (.symbol close) (expr .lowest) rounds p = .ok ids q ∧ Took p w q ∧
      List.Forall₂ (Shows q.tree) ids (items.map Item.expr) := by
  induction hListed generalizing items p rounds with
  | nil =>
    obtain rfl := List.map_eq_nil_iff.mp hWords
    obtain ⟨k, rfl⟩ := exists_round hLeft hRounds
    exact ⟨[], p, commaItems_of_close ((Parser.kind_of_left hLeft).trans hClose), .refl p, .nil⟩
  | last =>
    obtain ⟨i, rfl, rfl⟩ := List.map_eq_singleton_iff.mp hWords
    have hItem := hItems i (List.mem_singleton_self i)
    obtain ⟨token, more, -, hWord, -⟩ := hItem.starts
    obtain ⟨k, rfl⟩ := exists_round (hLeft.trans (by rw [hWord]; rfl)) hRounds
    obtain ⟨id, q, hRun, hTook, hShows, hq⟩ :=
      yields_inner hExpr (hDepth i (List.mem_singleton_self i)) hItem hp hLeft hDelimiter hClose
    refine ⟨[id], q, commaItems_of_last (kind_ne_of_derives hItem hLeft hDelimiter) hRun ?_, hTook,
      .cons hShows .nil⟩
    rw [Parser.kind_of_left hq, hClose]
    exact fun h => hComma (TokenKind.symbol.inj h)
  | cons hk hRest ih =>
    obtain ⟨i, items, rfl, rfl, hMap⟩ := List.map_eq_cons_iff.mp hWords
    obtain ⟨hItem, hItems⟩ := List.forall_mem_cons.mp hItems
    obtain ⟨hFirst, hDepth⟩ := List.forall_mem_cons.mp hDepth
    rw [List.append_assoc] at hLeft
    obtain ⟨token, more, -, hWord, -⟩ := hItem.starts
    obtain ⟨k, rfl⟩ := exists_round (hLeft.trans (by rw [hWord]; rfl)) hRounds
    obtain ⟨id, q, hRun, hTook, hShows, hq⟩ :=
      yields_inner hExpr hFirst hItem hp hLeft (by decide) hk
    have hSecond := hTook.trans (Took.advance hq)
    have hMore : q.advanced.tokens.size < k + q.advanced.pos := by
      have hPos := hSecond.pos
      rw [hSecond.tokens, hPos, List.length_append, List.length_singleton]
      omega
    obtain ⟨ids, r, hRest, hTook', hAll⟩ := ih (hSecond.roomy hp) hMore hMap hDepth hItems
      (Parser.left_advanced hq)
    refine ⟨id :: ids, r, commaItems_of_comma (kind_ne_of_derives hItem hLeft hDelimiter) hRun
      ((Parser.kind_of_left hq).trans hk) hRest, by simpa using hSecond.trans hTook', ?_⟩
    exact .cons (hShows.mono hTook'.tree) hAll

/-- A list with its closing symbol. -/
theorem commaList_of_listed (hExpr : expr.Complete n) {close : Symbol} {closing : Token}
    (hDelimiter : close ∈ delimiters) (hComma : close ≠ .comma)
    (hClose : closing.kind = .symbol close) (hp : Roomy n p) {items : List Item}
    (hListed : Listed (items.map Item.word) w) (hDepth : ∀ i ∈ items, i.depth < n)
    (hItems : ∀ i ∈ items, Derives i.depth .logicalOr i.word i.expr)
    (hLeft : p.left = w ++ closing :: rest) :
    ∃ ids q, commaList close (expr .lowest) p = .ok ids q ∧ Took p (w ++ [closing]) q ∧
      List.Forall₂ (Shows q.tree) ids (items.map Item.expr) := by
  have hRounds : p.tokens.size < p.rounds + p.pos := by
    rw [Parser.rounds]
    omega
  obtain ⟨ids, q, hRun, hTook, hAll⟩ := commaItems_of_listed hExpr hDelimiter hComma hClose hp
    hRounds hListed rfl hDepth hItems hLeft
  have hq := hTook.left_eq hLeft
  have hExpect := expectSymbol_of_kind ((Parser.kind_of_left hq).trans hClose)
  exact ⟨ids, q.advanced, (bind_of_ok hRun _).trans (bind_of_ok hExpect _),
    hTook.trans (.advance hq), hAll⟩

/-! ### Heads -/

theorem yields_literal {token : Token} (h : Denotes token e) (hLeft : p.left = token :: rest) :
    Yields literal p [token] e := by
  obtain ⟨kind, hKind, hShows⟩ := literalKind_of_denotes h
  obtain ⟨id, q, hPush, hTook, -, hNew⟩ :=
    exists_push (Took.advance hLeft) (push kind token.span) rfl
  refine ⟨id, q, ?_, hTook, hShows _ _ hNew⟩
  refine (bind_of_ok (advance_of_left hLeft) _).trans ?_
  simp only [hKind]
  exact hPush

theorem yields_ref {token next : Token} (hLeft : p.left = token :: next :: rest)
    (hNext : next.kind ≠ .symbol .openParen) :
    Yields (name expr) p [token] (.ref token.value) := by
  obtain ⟨id, q, hPush, hTook, -, hNew⟩ :=
    exists_push (Took.advance hLeft) (push (.ref token.value) token.span) rfl
  refine ⟨id, q, ?_, hTook, .ref hNew⟩
  have hAt : atSymbol .openParen p.advanced = .ok false p.advanced := by
    refine congrArg (Reply.ok · p.advanced) (decide_eq_false ?_)
    rw [Parser.kind_of_left (Parser.left_advanced hLeft)]
    exact hNext
  exact (bind_of_ok (advance_of_left hLeft) _).trans ((bind_of_ok hAt _).trans hPush)

theorem yields_call (hExpr : expr.Complete n) (hp : Roomy n p) {token opening closing : Token}
    (hOpen : opening.kind = .symbol .openParen) {items : List Item}
    (hListed : Listed (items.map Item.word) w) (hDepth : ∀ i ∈ items, i.depth < n)
    (hItems : ∀ i ∈ items, Derives i.depth .logicalOr i.word i.expr)
    (hClose : closing.kind = .symbol .closeParen)
    (hLeft : p.left = token :: opening :: (w ++ closing :: rest)) :
    Yields (name expr) p (token :: opening :: (w ++ [closing]))
      (.call token.value (items.map Item.expr)) := by
  have hFirst := Took.advance hLeft
  have hSecond := Took.advance (hFirst.left_eq hLeft)
  have hBefore := hFirst.trans hSecond
  have hKind : p.advanced.kind = .symbol .openParen :=
    (Parser.kind_of_left (hFirst.left_eq hLeft)).trans hOpen
  obtain ⟨ids, q, hRun, hTook, hAll⟩ := commaList_of_listed hExpr (by decide) (by decide) hClose
    (hBefore.roomy hp) hListed hDepth hItems (hBefore.left_eq hLeft)
  obtain ⟨id, r, hPush, hTaken, hGrown, hNew⟩ :=
    exists_push (hBefore.trans hTook) (pushFrom token.span.start (.call token.value ids)) rfl
  obtain ⟨hLength, hZip⟩ := shows_zip (forall₂_mono hGrown hAll)
  refine ⟨id, r, ?_, hTaken, .call hNew hLength hZip⟩
  have hAt : atSymbol .openParen p.advanced = .ok true p.advanced :=
    congrArg (Reply.ok · p.advanced) (decide_eq_true hKind)
  have hArgs : callArgs expr p.advanced = .ok ids q :=
    (bind_of_ok (expectSymbol_of_kind hKind) _).trans hRun
  exact (bind_of_ok (advance_of_left hLeft) _).trans ((bind_of_ok hAt _).trans ((bind_of_ok hArgs _).trans hPush))

theorem yields_array (hExpr : expr.Complete n) (hp : Roomy n p) {opening closing : Token}
    {items : List Item} (hListed : Listed (items.map Item.word) w)
    (hDepth : ∀ i ∈ items, i.depth < n)
    (hItems : ∀ i ∈ items, Derives i.depth .logicalOr i.word i.expr)
    (hClose : closing.kind = .symbol .closeBracket)
    (hLeft : p.left = opening :: (w ++ closing :: rest)) :
    Yields (arrayLiteral expr) p (opening :: (w ++ [closing])) (.array (items.map Item.expr)) := by
  have hFirst := Took.advance hLeft
  obtain ⟨ids, q, hRun, hTook, hAll⟩ := commaList_of_listed hExpr (by decide) (by decide) hClose
    (hFirst.roomy hp) hListed hDepth hItems (hFirst.left_eq hLeft)
  obtain ⟨id, r, hPush, hTaken, hGrown, hNew⟩ :=
    exists_push (hFirst.trans hTook) (pushFrom opening.span.start (.array ids)) rfl
  obtain ⟨hLength, hZip⟩ := shows_zip (forall₂_mono hGrown hAll)
  refine ⟨id, r, ?_, hTaken, .array hNew hLength hZip⟩
  exact (bind_of_ok (advance_of_left hLeft) _).trans ((bind_of_ok hRun _).trans hPush)

/-- An expression between an opening token and a closing symbol. -/
theorem yields_between (hExpr : expr.Complete n) (hp : Roomy n p) {opening closing : Token}
    (hm : m < n) (h : Derives m .logicalOr w e) {close : Symbol} (hs : close ∈ delimiters)
    (hClose : closing.kind = .symbol close)
    (hLeft : p.left = opening :: (w ++ closing :: rest)) :
    ∃ id q, expr .lowest p.advanced = .ok id q ∧ expectSymbol close q = .ok () q.advanced ∧
      Took p (opening :: (w ++ [closing])) q.advanced ∧ Shows q.advanced.tree id e := by
  have hFirst := Took.advance hLeft
  obtain ⟨id, q, hRun, hTook, hShows, hq⟩ :=
    yields_inner hExpr hm h (hFirst.roomy hp) (hFirst.left_eq hLeft) hs hClose
  exact ⟨id, q, hRun, expectSymbol_of_kind ((Parser.kind_of_left hq).trans hClose),
    hFirst.trans (hTook.trans (.advance hq)), hShows⟩

theorem yields_group (hExpr : expr.Complete n) (hp : Roomy n p) {opening closing : Token}
    (hm : m < n) (h : Derives m .logicalOr w e) (hClose : closing.kind = .symbol .closeParen)
    (hLeft : p.left = opening :: (w ++ closing :: rest)) :
    Yields (group expr) p (opening :: (w ++ [closing])) e := by
  obtain ⟨id, q, hRun, hExpect, hTook, hShows⟩ :=
    yields_between hExpr hp hm h (by decide) hClose hLeft
  refine ⟨id, _, ?_, hTook, hShows⟩
  exact (bind_of_ok (advance_of_left hLeft) _).trans
    ((bind_of_ok hRun _).trans (bind_of_ok hExpect _))

theorem yields_absolute (hExpr : expr.Complete n) (hp : Roomy n p) {opening closing : Token}
    (hm : m < n) (h : Derives m .logicalOr w e) (hClose : closing.kind = .symbol .closeAbs)
    (hLeft : p.left = opening :: (w ++ closing :: rest)) :
    Yields (absolute expr) p (opening :: (w ++ [closing])) (.unary .abs e) := by
  obtain ⟨id, q, hRun, hExpect, hTook, hShows⟩ :=
    yields_between hExpr hp hm h (by decide) hClose hLeft
  obtain ⟨new, r, hPush, hTaken, hGrown, hNew⟩ :=
    exists_push hTook (pushFrom opening.span.start (.unary .abs id)) rfl
  refine ⟨new, r, ?_, hTaken, .unary hNew (hShows.mono hGrown)⟩
  exact (bind_of_ok (advance_of_left hLeft) _).trans
    ((bind_of_ok hRun _).trans ((bind_of_ok hExpect _).trans hPush))

theorem yields_sign (hExpr : expr.Complete n) (hp : Roomy n p) {token next : Token} {s : Symbol}
    {op : UnaryOp} (hs : (s, op) ∈ signs) (hk : token.kind = .symbol s) (hm : m < n)
    (h : Derives m .unary w e) (hNext : Closes .unary next)
    (hLeft : p.left = token :: (w ++ next :: rest)) :
    Yields (sign expr) p (token :: w) (.unary op e) := by
  have hOp : (if token.kind = .symbol .bang then UnaryOp.not else UnaryOp.neg) = op := by
    have hAll : ∀ x ∈ signs,
        (if TokenKind.symbol x.1 = .symbol .bang then UnaryOp.not else UnaryOp.neg) = x.2 := by
      decide
    rw [hk]
    exact hAll _ hs
  have hFirst := Took.advance hLeft
  obtain ⟨id, q, hRun, hTook, hShows⟩ :=
    hExpr (c := .unary) hm (by decide) h (hFirst.roomy hp) (hFirst.left_eq hLeft) hNext
  obtain ⟨new, r, hPush, hTaken, hGrown, hNew⟩ :=
    exists_push (hFirst.trans hTook) (pushFrom token.span.start (.unary op id)) rfl
  refine ⟨new, r, ?_, hTaken, .unary hNew (hShows.mono hGrown)⟩
  refine (bind_of_ok (advance_of_left hLeft) _).trans ((bind_of_ok hRun _).trans ?_)
  rw [hOp]
  exact hPush

/-! ### Tails -/

variable {power c t : Power} {left : NodeId} {l : List Token} {a b : Expr}

theorem yields_binary (hExpr : expr.Complete n) (hp : Roomy n p) (hShows : Shows p.tree left a)
    {token next : Token} {s : Symbol} {op : BinaryOp} (hs : (s, op) ∈ t.operators)
    (hk : token.kind = .symbol s) (hm : m < n) (h : Derives m t.tighter w b)
    (hNext : Closes t next) (hLeft : p.left = token :: (w ++ next :: rest)) :
    Yields (binary expr left t) p (token :: w) (.binary op a b) := by
  obtain ⟨hRank, -⟩ := Power.rank_of_mem hs
  rw [← Power.operand_of_mem hs] at h
  have hFirst := Took.advance hLeft
  obtain ⟨right, q, hRun, hTook, hShows'⟩ :=
    hExpr hm (Nat.le_succ_of_le hRank) h (hFirst.roomy hp) (hFirst.left_eq hLeft) hNext
  obtain ⟨new, r, hPush, hTaken, hGrown, hNew⟩ :=
    exists_push (hFirst.trans hTook) (pushBinary op left right) rfl
  have hOp : BinaryOp.ofKind? token.kind = some op := by
    rw [hk, (Operator.ofKind?_of_mem hs).2]
  refine ⟨new, r, ?_, hTaken, ?_⟩
  · refine (bind_of_ok (advance_of_left hLeft) _).trans ?_
    simp only [hOp]
    exact (bind_of_ok hRun _).trans hPush
  · exact .binary hNew (hShows.mono (hTook.tree.trans hGrown)) (hShows'.mono hGrown)

theorem yields_exponent (hExpr : expr.Complete n) (hp : Roomy n p) (hShows : Shows p.tree left a)
    {token next : Token} (hm : m < n) (h : Derives m .unary w b) (hNext : Closes .unary next)
    (hLeft : p.left = token :: (w ++ next :: rest)) :
    Yields (exponent expr left) p (token :: w) (.binary .pow a b) := by
  have hFirst := Took.advance hLeft
  obtain ⟨right, q, hRun, hTook, hShows'⟩ :=
    hExpr (c := .unary) hm (by decide) h (hFirst.roomy hp) (hFirst.left_eq hLeft) hNext
  obtain ⟨new, r, hPush, hTaken, hGrown, hNew⟩ :=
    exists_push (hFirst.trans hTook) (pushBinary .pow left right) rfl
  refine ⟨new, r, ?_, hTaken, ?_⟩
  · exact (bind_of_ok (advance_of_left hLeft) _).trans ((bind_of_ok hRun _).trans hPush)
  · exact .binary hNew (hShows.mono (hTook.tree.trans hGrown)) (hShows'.mono hGrown)

theorem yields_element (hExpr : expr.Complete n) (hp : Roomy n p) (hShows : Shows p.tree left a)
    {opening closing : Token} (hm : m < n) (h : Derives m .logicalOr w b)
    (hClose : closing.kind = .symbol .closeBracket)
    (hLeft : p.left = opening :: (w ++ closing :: rest)) :
    Yields (index expr left) p (opening :: (w ++ [closing])) (.element a b) := by
  have hFirst := Took.advance hLeft
  obtain ⟨start, q, hRun, hTook, hStart, hq⟩ :=
    yields_inner hExpr hm h (hFirst.roomy hp) (hFirst.left_eq hLeft) (by decide) hClose
  have hKind := (Parser.kind_of_left hq).trans hClose
  have hEat : eat (.symbol .dots) q = .ok false q := if_neg (by rw [hKind]; decide)
  have hRest := hTook.trans (Took.advance hq)
  obtain ⟨new, r, hPush, hTaken, hGrown, hNew⟩ :=
    exists_push (hFirst.trans hRest) (pushAfter left start (.element left start)) rfl
  refine ⟨new, r, ?_, hTaken, ?_⟩
  · exact (bind_of_ok (advance_of_left hLeft) _).trans ((bind_of_ok hRun _).trans
      ((bind_of_ok hEat _).trans ((bind_of_ok (expectSymbol_of_kind hKind) _).trans hPush)))
  · have hStart' : Shows q.advanced.tree start b := hStart
    exact .element hNew (hShows.mono (hRest.tree.trans hGrown)) (hStart'.mono hGrown)

theorem yields_slice (hExpr : expr.Complete n) (hp : Roomy n p) (hShows : Shows p.tree left a)
    {opening dots closing : Token} {v : List Token} {k : Nat} (hm : m < n)
    (h : Derives m .logicalOr v b) (hDots : dots.kind = .symbol .dots) (hk : k < n)
    (h' : Derives k .logicalOr w e) (hClose : closing.kind = .symbol .closeBracket)
    (hLeft : p.left = opening :: (v ++ dots :: (w ++ closing :: rest))) :
    Yields (index expr left) p (opening :: (v ++ dots :: (w ++ [closing]))) (.slice a b e) := by
  have hFirst := Took.advance hLeft
  obtain ⟨start, q, hRun, hTook, hStart, hq⟩ :=
    yields_inner hExpr hm h (hFirst.roomy hp) (hFirst.left_eq hLeft) (by decide) hDots
  have hEat : eat (.symbol .dots) q = .ok true q.advanced :=
    if_pos ((Parser.kind_of_left hq).trans hDots)
  have hBefore := hTook.trans (Took.advance hq)
  obtain ⟨stop, r, hRun', hTook', hStop, hr⟩ := yields_inner hExpr hk h'
    ((hFirst.trans hBefore).roomy hp) (Parser.left_advanced hq) (by decide) hClose
  obtain ⟨bounds, r', hRange, hTaken, hGrown, hBounds⟩ := exists_push hTook'
    (push (.range start stop) (r.spanBetween start stop)) rfl
  have hSpan : look (·.spanBetween start stop) r = .ok (r.spanBetween start stop) r := rfl
  have hr' := hTaken.left_eq (Parser.left_advanced hq)
  have hExpect := expectSymbol_of_kind ((Parser.kind_of_left hr').trans hClose)
  have hRest := hTaken.trans (Took.advance hr')
  obtain ⟨new, u, hPush, hAll, hLast, hNew⟩ := exists_push
    (hFirst.trans (hBefore.trans hRest)) (pushAfter left bounds (.slice left bounds)) rfl
  refine ⟨new, u, ?_, by simpa using hAll, ?_⟩
  · exact (bind_of_ok (advance_of_left hLeft) _).trans ((bind_of_ok hRun _).trans
      ((bind_of_ok hEat _).trans ((bind_of_ok hRun' _).trans ((bind_of_ok hSpan _).trans
      ((bind_of_ok hRange _).trans ((bind_of_ok hExpect _).trans hPush))))))
  · have hBase : p.tree.Extends u.tree := (hBefore.trans hRest).tree.trans hLast
    have hAfter : r.tree.Extends u.tree := hGrown.trans hLast
    exact .slice hNew (hLast.kind? hBounds) (hShows.mono hBase)
      (hStart.mono (hTook'.tree.trans hAfter)) (hStop.mono hAfter)

/-! ### The loop -/

/-- The parser takes the word `w`, has a node that shows `e`, and goes on with the loop, which
has a round for every token left. -/
def Opens (expr : ExprParser) (power : Power) (p : Parser) (w : List Token) (e : Expr) : Prop :=
  ∃ id q rounds, exprWith expr power p = extend expr power rounds id q ∧ Took p w q ∧
    Shows q.tree id e ∧ p.tokens.size < rounds + q.pos

theorem opens_of_head (hp : p.Proper) (kind : Head) (hk : Head.ofKind? p.kind = some kind)
    (h : Yields (head expr kind) p w e) : Opens expr power p w e := by
  obtain ⟨id, q, hRun, hTook, hShows⟩ := h
  refine ⟨id, q, q.rounds, ?_, hTook, hShows, ?_⟩
  · rw [exprWith_eq hp, hk]
    exact bind_of_ok hRun _
  · rw [Parser.rounds, hTook.tokens]
    omega

/-- One more operator is one more round. -/
theorem Opens.tail (h : Opens expr power p l a) (hp : p.Proper) {token : Token}
    (hLeft : p.left = l ++ token :: rest) {kind : Tail}
    (ht : Operator.ofKind? token.kind = some (kind, t)) (hPower : power.rank < t.rank)
    (hTail : ∀ left q, Took p l q → Shows q.tree left a →
      Yields (Parse.tail expr left t kind) q (token :: w) e) :
    Opens expr power p (l ++ token :: w) e := by
  obtain ⟨left, q, rounds, hRun, hTook, hShows, hRounds⟩ := h
  have hq := hTook.left_eq hLeft
  obtain ⟨k, rfl⟩ := exists_round hq (hTook.tokens ▸ hRounds)
  obtain ⟨new, r, hStep, hTook', hShows'⟩ := hTail left q hTook hShows
  refine ⟨new, r, k, ?_, hTook.trans hTook', hShows', ?_⟩
  · rw [hRun, extend_of_tail (hTook.proper hp) ((Parser.kind_of_left hq).symm ▸ ht) hPower]
    exact bind_of_ok hStep _
  · have hPos := hTook'.pos_lt
    omega

/-- Every derivation is followed from its head on. -/
theorem opens_of_derives (hExpr : expr.Complete n) (hPower : power.rank ≤ 6) (hp : Roomy n p)
    (h : Derives m c w e) (hm : m ≤ n) (hc : power.operand.rank ≤ c.rank) {next : Token}
    (hNext : Follows c next) (hLeft : p.left = w ++ next :: rest) : Opens expr power p w e := by
  induction h generalizing next rest with
  | lift h ih => exact ih hm (Nat.le_trans hc (Power.rank_le_tighter _)) hNext.tighter hLeft
  | binary hs hk _ hlt h ih =>
    simp only [List.append_assoc, List.cons_append] at hLeft
    obtain ⟨hRank, -⟩ := Power.rank_of_mem hs
    have ht := hk ▸ (Operator.ofKind?_of_mem hs).1
    have hOpens := ih hm hc (follows_of_tail ht (Or.inr ⟨Nat.le_refl _, by omega⟩)) hLeft
    refine hOpens.tail hp.proper hLeft ht (Power.rank_lt_of_operand_le hc hRank) ?_
    intro left q hTook hShows
    exact yields_binary hExpr (hTook.roomy hp) hShows hs hk (Nat.lt_of_lt_of_le hlt hm) h
      (hNext.closes (by omega)).1 (hTook.left_eq hLeft)
  | power hk _ hlt h ih =>
    simp only [List.append_assoc, List.cons_append] at hLeft
    have ht : _ = some (Tail.exponent, Power.exponent) := congrArg Operator.ofKind? hk
    have hOpens := ih hm (Nat.le_succ_of_le hc) (follows_of_tail ht (Or.inl (by decide))) hLeft
    refine hOpens.tail hp.proper hLeft ht (Nat.lt_succ_of_le hPower) ?_
    intro left q hTook hShows
    exact yields_exponent hExpr (hTook.roomy hp) hShows (Nat.lt_of_lt_of_le hlt hm) h
      (hNext.closes (by decide)).2 (hTook.left_eq hLeft)
  | element _ hOpen hlt h hClose ih =>
    simp only [List.append_assoc, List.cons_append, List.nil_append] at hLeft
    have ht : _ = some (Tail.index, Power.index) := congrArg Operator.ofKind? hOpen
    have hOpens := ih hm hc (follows_of_tail ht (Or.inl (by decide))) hLeft
    refine hOpens.tail hp.proper hLeft ht (Nat.lt_of_le_of_lt hPower (by decide)) ?_
    intro left q hTook hShows
    exact yields_element hExpr (hTook.roomy hp) hShows (Nat.lt_of_lt_of_le hlt hm) h hClose
      (hTook.left_eq hLeft)
  | slice _ hOpen hlt h hDots hlt' h' hClose ih =>
    simp only [List.append_assoc, List.cons_append, List.nil_append] at hLeft
    have ht : _ = some (Tail.index, Power.index) := congrArg Operator.ofKind? hOpen
    have hOpens := ih hm hc (follows_of_tail ht (Or.inl (by decide))) hLeft
    refine hOpens.tail hp.proper hLeft ht (Nat.lt_of_le_of_lt hPower (by decide)) ?_
    intro left q hTook hShows
    exact yields_slice hExpr (hTook.roomy hp) hShows (Nat.lt_of_lt_of_le hlt hm) h hDots
      (Nat.lt_of_lt_of_le hlt' hm) h' hClose (hTook.left_eq hLeft)
  | sign hs hk hlt h =>
    rw [List.cons_append] at hLeft
    refine opens_of_head hp.proper .sign ?_ ?_
    · rw [Parser.kind_of_left hLeft, hk, head_of_sign hs]
    · exact yields_sign hExpr hp hs hk (Nat.lt_of_lt_of_le hlt hm) h
        (hNext.closes (by decide)).1 hLeft
  | literal h =>
    refine opens_of_head hp.proper .literal ?_ (yields_literal h hLeft)
    rw [Parser.kind_of_left hLeft, h.head]
  | ref hk =>
    refine opens_of_head hp.proper .name ?_ (yields_ref hLeft hNext.call)
    rw [Parser.kind_of_left hLeft, hk]
    rfl
  | call hk hOpen hListed hDepth hItems hClose =>
    simp only [List.append_assoc, List.cons_append, List.nil_append] at hLeft
    refine opens_of_head hp.proper .name ?_ (yields_call hExpr hp hOpen hListed
      (fun i hi => Nat.lt_of_lt_of_le (hDepth i hi) hm) hItems hClose hLeft)
    rw [Parser.kind_of_left hLeft, hk]
    rfl
  | array hOpen hListed hDepth hItems hClose =>
    simp only [List.append_assoc, List.cons_append, List.nil_append] at hLeft
    refine opens_of_head hp.proper .array ?_ (yields_array hExpr hp hListed
      (fun i hi => Nat.lt_of_lt_of_le (hDepth i hi) hm) hItems hClose hLeft)
    rw [Parser.kind_of_left hLeft, hOpen]
    rfl
  | group hOpen hlt h hClose =>
    simp only [List.append_assoc, List.cons_append, List.nil_append] at hLeft
    refine opens_of_head hp.proper .group ?_
      (yields_group hExpr hp (Nat.lt_of_lt_of_le hlt hm) h hClose hLeft)
    rw [Parser.kind_of_left hLeft, hOpen]
    rfl
  | absolute hOpen hlt h hClose =>
    simp only [List.append_assoc, List.cons_append, List.nil_append] at hLeft
    refine opens_of_head hp.proper .absolute ?_
      (yields_absolute hExpr hp (Nat.lt_of_lt_of_le hlt hm) h hClose hLeft)
    rw [Parser.kind_of_left hLeft, hOpen]
    rfl

/-! ### Whole expressions -/

theorem yields_exprWith (hExpr : expr.Complete n) (hPower : power.rank ≤ 6) (hp : Roomy n p)
    (h : Derives m power.operand w e) (hm : m ≤ n) {next : Token} (hNext : Closes power next)
    (hLeft : p.left = w ++ next :: rest) : Yields (exprWith expr power) p w e := by
  have hFollows := hNext.follows hPower power.rank_le_operand
  obtain ⟨id, q, rounds, hRun, hTook, hShows, hRounds⟩ :=
    opens_of_derives hExpr hPower hp h hm (Nat.le_refl _) hFollows hLeft
  have hq := hTook.left_eq hLeft
  obtain ⟨k, rfl⟩ := exists_round hq (hTook.tokens ▸ hRounds)
  refine ⟨id, q, ?_, hTook, hShows⟩
  rw [hRun, extend_of_stops (hTook.proper hp.proper)]
  rw [Parser.current_of_left hq]
  exact hNext.stops

/-- With `levels` levels left, every derived word that is nested less deep is taken. -/
theorem complete_exprAt (levels : Nat) : ExprParser.Complete levels (exprAt levels) := by
  induction levels with
  | zero => exact fun hm => absurd hm (Nat.not_lt_zero _)
  | succ levels ih =>
    intro m c w rest e p next hm hc h hp hLeft hNext
    have hLevels := hp.levels
    have hInside : Roomy levels { p with nesting := p.nesting + 1 } :=
      ⟨hp.proper.inside, by simp only; omega⟩
    obtain ⟨id, q, hRun, hTook, hShows⟩ :=
      yields_exprWith ih hc hInside h (Nat.le_of_lt_succ hm) hNext hLeft
    exact ⟨id, _, nested_of_ok (by omega) hRun, hTook.inside, hShows⟩

end Parse

end StageScript

import StageScript.Proofs.Render.Judge
import StageScript.Proofs.Render.Read

/-!
# Expressions are read as they are written

In front of the words of a term, the parser of expressions replies with a node from which the
term can be read back, if the words are nested within the levels that are left; if not, it goes
too deep.  A term is followed along its left operands down to its head: there the parser starts,
and every operator on the way back is a round of the loop (`Begins`).  All other parts are left
to the parser of inner expressions (`ExprParser.Exact`).
-/

namespace StageScript

def Word.token (w : Word) : Token := ⟨w.kind, w.text, default⟩

theorem Stops.of_kind {c : Power} {a b : Token} (h : Stops c a) (hk : b.kind = a.kind) :
    Stops c b :=
  fun tail t ht => h tail t (hk ▸ ht)

/-- An operator of the layer or a looser one follows the layer. -/
theorem Word.follows {c t : Power} {w : Word} {kind : Tail}
    (ht : Operator.ofKind? w.kind = some (kind, t))
    (hc : 8 ≤ c.rank ∨ (t.rank ≤ c.rank ∧ t.rank ≤ 6)) : Follows c w.token :=
  follows_of_tail ht hc

/-- In the tree, once it is complete, the node makes up what the term denotes. -/
def Tree.Reads (t : Tree) (id : NodeId) (e : Term) : Prop :=
  t.WellFormed → t.expr? id = some e.expr

/-! ### The words of terms -/

/-- Every operator stands in the layer that the parser binds it with. -/
theorem BinaryOp.mem_operators (op : BinaryOp) (h : op ≠ .pow) :
    (op.symbol, op) ∈ op.layer.operators := by
  cases op with
  | pow => exact absurd rfl h
  | _ => decide

theorem BinaryOp.leftLayer_of_ne (op : BinaryOp) (h : op ≠ .pow) : op.leftLayer = op.layer := by
  cases op with
  | pow => exact absurd rfl h
  | _ => rfl

theorem BinaryOp.rightLayer_of_ne (op : BinaryOp) (h : op ≠ .pow) :
    op.rightLayer = op.layer.tighter := by
  cases op with
  | pow => exact absurd rfl h
  | _ => rfl

theorem BinaryOp.rank_le_layer (op : BinaryOp) : Power.rank .logicalOr ≤ op.layer.rank := by
  cases op <;> decide

theorem Phrase.wrap_of_le {c layer : Power} (h : c.rank ≤ layer.rank) (φ : Phrase) :
    Phrase.wrap c layer φ = φ :=
  if_neg (Nat.not_lt_of_le h)

theorem Phrase.wrap_of_lt {c layer : Power} (h : layer.rank < c.rank) (φ : Phrase) :
    Phrase.wrap c layer φ = φ.deeper.parens :=
  if_pos h

/-- Words start with a head, in parentheses or not. -/
theorem Phrase.wrap_starts {c layer : Power} {φ : Phrase}
    (h : ∃ w ws head, φ.words = w :: ws ∧ Head.ofKind? w.kind = some head) :
    ∃ w ws head, (Phrase.wrap c layer φ).words = w :: ws ∧ Head.ofKind? w.kind = some head := by
  rw [Phrase.wrap]
  split
  · exact ⟨_, _, _, rfl, rfl⟩
  · exact h

theorem Phrase.append_starts {φ : Phrase} (ψ : Phrase)
    (h : ∃ w ws head, φ.words = w :: ws ∧ Head.ofKind? w.kind = some head) :
    ∃ w ws head, (φ ++ ψ).words = w :: ws ∧ Head.ofKind? w.kind = some head := by
  obtain ⟨w, ws, head, hWords, hHead⟩ := h
  exact ⟨w, ws ++ ψ.words, head, by rw [words_append, hWords, List.cons_append], hHead⟩

/-- The words of a term start with a head. -/
theorem Term.starts (c : Power) : ∀ e : Term,
    ∃ w ws head, (e.phrase c).words = w :: ws ∧ Head.ofKind? w.kind = some head
  | .num _ | .char _ | .str _ | .ref _ | .call _ _ | .array _ | .unary .abs _ =>
    ⟨_, _, _, rfl, rfl⟩
  | .unary .neg _ | .unary .not _ => Phrase.wrap_starts ⟨_, _, _, rfl, rfl⟩
  | .binary op lhs _ =>
    Phrase.wrap_starts (Phrase.append_starts _ (Phrase.append_starts _ (lhs.starts op.leftLayer)))
  | .element base _ | .slice base _ _ => Phrase.append_starts _ (base.starts .index)

/-- The words of a term start with no symbol that ends expressions. -/
theorem Term.starts_of_delimiter (e : Term) {s : Symbol} (hs : s ∈ delimiters) :
    ∃ w ws, e.whole.words = w :: ws ∧ w.kind ≠ .symbol s := by
  have hAll : ∀ s ∈ delimiters, Head.ofKind? (.symbol s) = none := by decide
  obtain ⟨w, ws, head, hWords, hHead⟩ := e.starts .logicalOr
  refine ⟨w, ws, hWords, fun hk => ?_⟩
  rw [hk, hAll s hs] at hHead
  cases hHead

/-! ### What is read -/

namespace Tree.Reads

variable {p : Parser} {t : Tree} {id a b c r : NodeId} {x y z : Term}

theorem of_made {kind : NodeKind} (h : Made p kind id t)
    (hExpr : t.WellFormed → t.exprOf t.expr? kind = some x.expr) : t.Reads id x :=
  fun ht => (ht.expr?_eq h.kind).trans (hExpr ht)

theorem unary {op : UnaryOp} (ha : t.Reads a x) (h : Made p (.unary op a) id t) :
    t.Reads id (.unary op x) :=
  of_made h fun ht => by simp [exprOf, ha ht, Term.expr]

theorem binary {op : BinaryOp} (ha : t.Reads a x) (hb : t.Reads b y)
    (h : Made p (.binary op a b) id t) : t.Reads id (.binary op x y) :=
  of_made h fun ht => by simp [exprOf, ha ht, hb ht, Term.expr]

theorem element (ha : t.Reads a x) (hb : t.Reads b y) (h : Made p (.element a b) id t) :
    t.Reads id (.element x y) :=
  of_made h fun ht => by simp [exprOf, ha ht, hb ht, Term.expr]

theorem slice (ha : t.Reads a x) (hb : t.Reads b y) (hc : t.Reads c z)
    (hr : Made p (.range b c) r t) (h : Made p (.slice a r) id t) : t.Reads id (.slice x y z) :=
  of_made h fun ht => by simp [exprOf, range?, hr.kind, ha ht, hb ht, hc ht, Term.expr]

/-- The expressions of a list are read one by one. -/
theorem mapM {ids : List NodeId} {es : List Term} (ht : t.WellFormed)
    (h : List.Forall₂ (fun id e => t.Reads id e) ids es) :
    ids.mapM t.expr? = some (es.map Term.expr) :=
  mapM_of_forall₂ (h.imp fun _ _ hRead => hRead ht)

end Tree.Reads

namespace Parse

/-- With `n` levels left, the parser takes the words of a term that are nested less deep, and
goes too deep in all others. -/
def ExprParser.Exact (n : Nat) (expr : ExprParser) : Prop :=
  ∀ {e : Term} {c : Power} {p : Parser} {next : Word} {rest : List Word}, c.rank ≤ 6 →
    Roomy n p → p.ahead = (e.phrase c.operand).words ++ next :: rest → Closes c next.token →
    Judged ((e.phrase c.operand).nesting < n)
      (fun id q => After p (next :: rest) (·.Reads id e) q) (expr c p)

variable {α β : Type} {n : Nat} {expr : ExprParser} {p q : Parser} {rest : List Word}
  {Γ : Tree → Prop} {fits more : Prop} {goal : β → Parser → Prop}

/-- A whole expression in front of a symbol that ends it, and what comes after. -/
theorem judged_whole (hExpr : expr.Exact n) (hp : Roomy n p) {e : Term} {s : Symbol}
    (hq : After p (e.whole.words ++ .symbol s :: rest) Γ q) (hs : s ∈ delimiters)
    {next : NodeId → Parse β}
    (hNext : ∀ id r, After p (.symbol s :: rest) (fun u => Γ u ∧ u.Reads id e) r →
      Judged more goal (next id r)) :
    Judged (e.whole.nesting ≤ n ∧ more) goal ((expr .lowest >>= next) q) :=
  Judged.bind hq (hExpr (c := .lowest) (by decide) (hq.roomy hp) hq.ahead
    (closes_of_delimiter hs rfl _)) hNext

/-! ### Lists -/

/-- In front of a comma or the closing symbol, the step takes the words of `φ`, and `F` holds of
the node. -/
structure Item (n : Nat) (close : Symbol) (item : Parse NodeId) (φ : Phrase)
    (F : NodeId → Tree → Prop) : Prop where
  starts : ∃ w ws, φ.words = w :: ws ∧ w.kind ≠ .symbol close
  judged : ∀ {q : Parser} {s : Symbol} {rest : List Word}, Roomy n q →
    q.ahead = φ.words ++ .symbol s :: rest → s = .comma ∨ s = close →
    Judged (φ.nesting ≤ n) (fun id r => After q (.symbol s :: rest) (F id) r) (item q)

/-- The rounds of a list reach its closing symbol. -/
theorem judged_commaItems {item : Parse NodeId} {word : α → Phrase}
    {F : α → NodeId → Tree → Prop} {close : Symbol} (hClose : close ≠ .comma) {xs : List α}
    (h : ∀ x ∈ xs, Item n close item (word x) (F x)) {q : Parser} {rounds : Nat}
    (hq : Roomy n q)
    (hAhead : q.ahead = (Phrase.commas (xs.map word)).words ++ .symbol close :: rest)
    (hRounds : q.ahead.length < rounds) :
    Judged ((Phrase.commas (xs.map word)).nesting ≤ n)
      (fun ids r => After q (.symbol close :: rest)
        (fun u => List.Forall₂ (fun id x => F x id u) ids xs) r)
      (commaItems (.symbol close) item rounds q) := by
  induction xs generalizing q rounds with
  | nil =>
    obtain ⟨k, rfl⟩ := Nat.exists_eq_succ_of_ne_zero (Nat.ne_zero_of_lt hRounds)
    have hStart := After.refl hq.proper hAhead
    refine .of_iff (show True ↔ _ by simp [Phrase.commas]) ?_
    exact judged_ifAt hStart rfl (.pure (hStart.imp fun u _ => .nil))
  | cons x xs ih =>
    obtain ⟨k, rfl⟩ := Nat.exists_eq_succ_of_ne_zero (Nat.ne_zero_of_lt hRounds)
    obtain ⟨hx, hxs⟩ := List.forall_mem_cons.mp h
    obtain ⟨w, ws, hWords, hw⟩ := hx.starts
    cases xs with
    | nil =>
      have hStart : After q ((word x).words ++ .symbol close :: rest) (fun _ => True) q :=
        .refl hq.proper hAhead
      refine .of_iff (show (word x).nesting ≤ n ∧ True ↔ _ by simp [Phrase.commas]) ?_
      refine judged_ifAt_of_ne (hWords ▸ hStart) hw ?_
      refine Judged.bind hStart (hx.judged hq hAhead (Or.inr rfl)) fun id r hr => ?_
      refine judged_ifEat_of_ne hr (fun hk => hClose (TokenKind.symbol.inj hk)) (.pure ?_)
      exact hr.imp fun u hu => .cons hu.2 .nil
    | cons y ys =>
      have hWhole : q.ahead = (word x).words ++ .symbol .comma ::
          ((Phrase.commas ((y :: ys).map word)).words ++ .symbol close :: rest) := by
        simpa [Phrase.commas] using hAhead
      have hStart : After q _ (fun _ => True) q := .refl hq.proper hWhole
      refine .of_iff (show (word x).nesting ≤ n ∧ (Phrase.commas ((y :: ys).map word)).nesting ≤ n
        ∧ True ↔ _ by simp [Phrase.commas]) ?_
      refine judged_ifAt_of_ne (hWords ▸ hStart) hw ?_
      refine Judged.bind hStart (hx.judged hq hWhole (Or.inl rfl)) fun id r hr => ?_
      refine judged_ifEat hr rfl fun r hr => ?_
      have hLess : r.ahead.length < k := Parser.length_lt_of_rounds hWhole hr.ahead hRounds (by
        simp only [List.length_append, List.length_cons]
        omega)
      refine Judged.bind hr (ih hxs (hr.roomy hq) hr.ahead hLess) fun ids r hr => .pure ?_
      exact hr.imp fun u hu => .cons hu.1.2 hu.2

theorem judged_commaList {item : Parse NodeId} {word : α → Phrase}
    {F : α → NodeId → Tree → Prop} {close : Symbol} (hClose : close ≠ .comma) {xs : List α}
    (h : ∀ x ∈ xs, Item n close item (word x) (F x)) (hq : Roomy n q)
    (hAhead : q.ahead = (Phrase.commas (xs.map word)).words ++ .symbol close :: rest) :
    Judged ((Phrase.commas (xs.map word)).nesting ≤ n)
      (fun ids r => After q rest (fun u => List.Forall₂ (fun id x => F x id u) ids xs) r)
      (commaList close item q) := by
  refine .of_iff (and_iff_left trivial) ?_
  refine judged_look (Judged.seq (judged_commaItems hClose h hq hAhead q.length_lt_rounds) ?_)
  intro ids r hr
  exact judged_expectSymbol hr fun r hr => .pure hr

theorem item_term (hExpr : expr.Exact n) {close : Symbol} (hClose : close ∈ delimiters)
    (e : Term) : Item n close (expr .lowest) e.whole fun id u => u.Reads id e where
  starts := e.starts_of_delimiter hClose
  judged := by
    intro q s rest hq hAhead hs
    have hDelimiter : s ∈ delimiters := by
      rcases hs with rfl | rfl
      · decide
      · exact hClose
    exact hExpr (c := .lowest) (by decide) hq hAhead (closes_of_delimiter hDelimiter rfl _)

/-- Expressions with commas between them, up to the closing symbol. -/
theorem judged_exprs (hExpr : expr.Exact n) {close : Symbol} (hClose : close ∈ delimiters)
    (hComma : close ≠ .comma) {es : List Term} (hq : Roomy n q)
    (hAhead : q.ahead = (Phrase.commas (es.map Term.whole)).words ++ .symbol close :: rest) :
    Judged ((Phrase.commas (es.map Term.whole)).nesting ≤ n)
      (fun ids r => After q rest (fun u => List.Forall₂ (fun id e => u.Reads id e) ids es) r)
      (commaList close (expr .lowest) q) :=
  judged_commaList hComma (fun e _ => item_term hExpr hClose e) hq hAhead

/-- Arguments in parentheses. -/
theorem judged_callArgs (hExpr : expr.Exact n) {args : List Term} (hq : Roomy n q)
    (hAhead : q.ahead = (Phrase.commas (args.map Term.whole)).parens.words ++ rest) :
    Judged ((Phrase.commas (args.map Term.whole)).nesting ≤ n)
      (fun ids r => After q rest (fun u => List.Forall₂ (fun id e => u.Reads id e) ids args) r)
      (callArgs expr q) := by
  have hWords : q.ahead = .symbol .openParen :: ((Phrase.commas (args.map Term.whole)).words ++
      .symbol .closeParen :: rest) := by
    simpa using hAhead
  refine judged_expectSymbol (.refl hq.proper hWords) fun r hr => ?_
  refine (judged_exprs hExpr (by decide) (by decide) (hr.roomy hq) hr.ahead).imp ?_
  exact fun ids r' hr' => (hr.trans hr').imp fun u hu => hu.2

/-! ### Heads -/

abbrev JudgedTerm (fits : Prop) (p : Parser) (rest : List Word) (e : Term) :
    Reply NodeId → Prop :=
  Judged fits fun id q => After p rest (·.Reads id e) q

theorem judged_literal {e : Term} {w : Word} {k : NodeKind} (hp : p.Proper)
    (hAhead : p.ahead = w :: rest)
    (hKind : ∀ token : Token, token.word = w → literalKind token = .ok k)
    (hRead : ∀ t : Tree, t.exprOf t.expr? k = some e.expr) :
    JudgedTerm True p rest e (literal p) := by
  refine judged_advance (.refl hp hAhead) fun token r hw hr => ?_
  simp only [hKind token hw]
  exact judged_last hr rfl fun id u _ hMade => .of_made hMade fun _ => hRead u

theorem judged_ref {f : String} {next : Word} (hp : p.Proper)
    (hAhead : p.ahead = .name f :: next :: rest) (hNext : next.kind ≠ .symbol .openParen) :
    JudgedTerm True p (next :: rest) (.ref f) (name expr p) := by
  refine judged_advance (.refl hp hAhead) fun token r hw hr => ?_
  refine judged_ifAt_of_ne hr hNext ?_
  have hName : token.value = f := congrArg Word.text hw
  rw [hName]
  exact judged_last hr rfl fun id u _ hMade => .of_made hMade fun _ => rfl

theorem judged_call (hExpr : expr.Exact n) (hp : Roomy n p) {f : String} {args : List Term}
    (hAhead : p.ahead = .name f :: ((Phrase.commas (args.map Term.whole)).parens.words ++ rest)) :
    JudgedTerm ((Phrase.commas (args.map Term.whole)).nesting ≤ n) p rest (.call f args)
      (name expr p) := by
  refine .of_iff (and_iff_left trivial) ?_
  refine judged_advance (.refl hp.proper hAhead) fun token r hw hr => ?_
  refine judged_ifAt hr rfl ?_
  refine Judged.bind hr (judged_callArgs hExpr (hr.roomy hp) hr.ahead) fun ids r hr => ?_
  have hName : token.value = f := congrArg Word.text hw
  rw [hName]
  refine judged_last hr rfl fun id u hu hMade => .of_made hMade fun ht => ?_
  simp [Tree.exprOf, Tree.Reads.mapM ht hu.2, Term.expr, Term.exprs_eq_map]

theorem judged_array (hExpr : expr.Exact n) (hp : Roomy n p) {elems : List Term}
    (hAhead : p.ahead = (Phrase.commas (elems.map Term.whole)).brackets.words ++ rest) :
    JudgedTerm ((Phrase.commas (elems.map Term.whole)).nesting ≤ n) p rest (.array elems)
      (arrayLiteral expr p) := by
  have hWords : p.ahead = .symbol .openBracket ::
      ((Phrase.commas (elems.map Term.whole)).words ++ .symbol .closeBracket :: rest) := by
    simpa using hAhead
  refine .of_iff (and_iff_left trivial) ?_
  refine judged_advance (.refl hp.proper hWords) fun token r hw hr => ?_
  refine Judged.bind hr (judged_exprs hExpr (by decide) (by decide) (hr.roomy hp) hr.ahead)
    fun ids r hr => ?_
  refine judged_last hr rfl fun id u hu hMade => .of_made hMade fun ht => ?_
  simp [Tree.exprOf, Tree.Reads.mapM ht hu.2, Term.expr, Term.exprs_eq_map]

theorem judged_group (hExpr : expr.Exact n) (hp : Roomy n p) {e : Term}
    (hAhead : p.ahead = .symbol .openParen :: (e.whole.words ++ .symbol .closeParen :: rest)) :
    JudgedTerm (e.whole.nesting ≤ n) p rest e (group expr p) := by
  refine .of_iff (and_iff_left trivial) ?_
  refine judged_advance (.refl hp.proper hAhead) fun token r hw hr => ?_
  refine judged_whole hExpr hp hr (by decide) fun id r hr => ?_
  exact judged_expectSymbol hr fun r hr => .pure (hr.imp fun u hu => hu.2)

theorem judged_absolute (hExpr : expr.Exact n) (hp : Roomy n p) {e : Term}
    (hAhead : p.ahead = .symbol .openAbs :: (e.whole.words ++ .symbol .closeAbs :: rest)) :
    JudgedTerm (e.whole.nesting ≤ n) p rest (.unary .abs e) (absolute expr p) := by
  refine .of_iff (and_iff_left trivial) ?_
  refine judged_advance (.refl hp.proper hAhead) fun token r hw hr => ?_
  refine judged_whole hExpr hp hr (by decide) fun id r hr => ?_
  refine judged_expectSymbol hr fun r hr => ?_
  exact judged_last hr rfl fun id u hu hMade => hu.2.unary hMade

theorem judged_sign (hExpr : expr.Exact n) (hp : Roomy n p) {e : Term} {s : Symbol}
    {op : UnaryOp} (hs : (s, op) ∈ signs) {next : Word} (hNext : Closes .unary next.token)
    (hAhead : p.ahead = .symbol s :: ((e.phrase .unary).words ++ next :: rest)) :
    JudgedTerm ((e.phrase .unary).nesting < n) p (next :: rest) (.unary op e) (sign expr p) := by
  have hOp : ∀ x ∈ signs,
      (if TokenKind.symbol x.1 = .symbol .bang then UnaryOp.not else UnaryOp.neg) = x.2 := by
    decide
  refine .of_iff (and_iff_left trivial) ?_
  refine judged_advance (.refl hp.proper hAhead) fun token r hw hr => ?_
  refine Judged.bind hr (hExpr (c := .unary) (by decide) (hr.roomy hp) hr.ahead hNext)
    fun id r hr => ?_
  have hKind : token.kind = .symbol s := congrArg Word.kind hw
  rw [hKind, hOp _ hs]
  exact judged_last hr rfl fun id u hu hMade => hu.2.unary hMade

/-! ### Tails -/

variable {left : NodeId} {a b c : Term} {next : Word}

theorem judged_binary (hExpr : expr.Exact n) (hp : Roomy n p) {op : BinaryOp} (hOp : op ≠ .pow)
    (hNext : Closes op.layer next.token)
    (hq : After p (.symbol op.symbol :: ((b.phrase op.rightLayer).words ++ next :: rest))
      (·.Reads left a) q) :
    JudgedTerm ((b.phrase op.rightLayer).nesting < n) p (next :: rest) (.binary op a b)
      (binary expr left op.layer q) := by
  have hMem := op.mem_operators hOp
  obtain ⟨hRank, -⟩ := Power.rank_of_mem hMem
  have hLayer : op.rightLayer = op.layer.operand := by
    rw [Power.operand_of_mem hMem, op.rightLayer_of_ne hOp]
  rw [hLayer] at hq ⊢
  refine .of_iff (and_iff_left trivial) ?_
  refine judged_advance hq fun token r hw hr => ?_
  have hKind : BinaryOp.ofKind? token.kind = some op := by
    rw [show token.kind = .symbol op.symbol from congrArg Word.kind hw]
    exact (Operator.ofKind?_of_mem hMem).2
  simp only [hKind]
  refine Judged.bind hr (hExpr (Nat.le_succ_of_le hRank) (hr.roomy hp) hr.ahead hNext) ?_
  intro right r hr
  exact judged_last hr rfl fun id u hu hMade => hu.1.binary hu.2 hMade

theorem judged_exponent (hExpr : expr.Exact n) (hp : Roomy n p)
    (hNext : Closes .unary next.token)
    (hq : After p (.symbol .caret :: ((b.phrase .unary).words ++ next :: rest))
      (·.Reads left a) q) :
    JudgedTerm ((b.phrase .unary).nesting < n) p (next :: rest) (.binary .pow a b)
      (exponent expr left q) := by
  refine .of_iff (and_iff_left trivial) ?_
  refine judged_advance hq fun token r _ hr => ?_
  refine Judged.bind hr (hExpr (c := .unary) (by decide) (hr.roomy hp) hr.ahead hNext) ?_
  intro right r hr
  exact judged_last hr rfl fun id u hu hMade => hu.1.binary hu.2 hMade

theorem judged_element (hExpr : expr.Exact n) (hp : Roomy n p)
    (hq : After p (.symbol .openBracket :: (b.whole.words ++ .symbol .closeBracket :: rest))
      (·.Reads left a) q) :
    JudgedTerm (b.whole.nesting ≤ n) p rest (.element a b) (index expr left q) := by
  refine .of_iff (and_iff_left trivial) ?_
  refine judged_advance hq fun token r _ hr => ?_
  refine judged_whole hExpr hp hr (by decide) fun start r hr => ?_
  refine judged_ifEat_of_ne hr (by decide) ?_
  refine judged_expectSymbol hr fun r hr => ?_
  exact judged_last hr rfl fun id u hu hMade => hu.1.element hu.2 hMade

theorem judged_slice (hExpr : expr.Exact n) (hp : Roomy n p)
    (hq : After p (.symbol .openBracket :: (b.whole.words ++ .symbol .dots ::
      (c.whole.words ++ .symbol .closeBracket :: rest))) (·.Reads left a) q) :
    JudgedTerm (b.whole.nesting ≤ n ∧ c.whole.nesting ≤ n) p rest (.slice a b c)
      (index expr left q) := by
  refine .of_iff (and_congr_right fun _ => and_iff_left trivial) ?_
  refine judged_advance hq fun token r _ hr => ?_
  refine judged_whole hExpr hp hr (by decide) fun start r hr => ?_
  refine judged_ifEat hr rfl fun r hr => ?_
  refine judged_whole hExpr hp hr (by decide) fun stop r hr => ?_
  refine judged_look (judged_push hr rfl fun bounds r hr => ?_)
  refine judged_expectSymbol hr fun r hr => ?_
  refine judged_last hr rfl fun id u hu hMade => ?_
  exact hu.1.1.1.slice hu.1.1.2 hu.1.2 hu.2 hMade

/-! ### The loop -/

/-- The parser takes the words of a term up to `rest`, if they fit, and goes on with the loop,
which has a round for every word left. -/
def Begins (expr : ExprParser) (power : Power) (p : Parser) (rest : List Word) (fits : Prop)
    (e : Term) : Prop :=
  ∃ reply rounds, JudgedTerm fits p rest e reply ∧ rest.length < rounds ∧
    exprWith expr power p = (do extend expr power rounds (← fun _ => reply) : Parse NodeId) p

variable {power : Power} {e : Term}

theorem begins_of_head (hp : p.Proper) (kind : Head) (hk : Head.ofKind? p.kind = some kind)
    (h : JudgedTerm fits p rest e (head expr kind p)) : Begins expr power p rest fits e := by
  refine ⟨head expr kind p, rest.length + 1, h, Nat.lt_succ_self _, ?_⟩
  rw [exprWith_eq hp, hk]
  simp only [bind]
  cases hr : head expr kind p with
  | fail d q => rfl
  | ok id q =>
    rw [hr] at h
    simp only [q.rounds_eq, h.2.ahead]

/-- One more operator is one more round. -/
theorem Begins.tail {w : Word} {after : List Word}
    (h : Begins expr power p (w :: after) fits a) {t : Power} {kind : Tail}
    (ht : Operator.ofKind? w.kind = some (kind, t)) (hPower : power.rank < t.rank)
    (hLess : rest.length ≤ after.length)
    (hTail : ∀ left q, After p (w :: after) (·.Reads left a) q →
      JudgedTerm more p rest e (Parse.tail expr left t kind q)) :
    Begins expr power p rest (fits ∧ more) e := by
  obtain ⟨reply, rounds, hReply, hRounds, hRun⟩ := h
  obtain ⟨k, rfl⟩ := Nat.exists_eq_succ_of_ne_zero (Nat.ne_zero_of_lt hRounds)
  refine ⟨(do Parse.tail expr (← fun _ => reply) t kind : Parse NodeId) p, k,
    Judged.seq hReply hTail, ?_, ?_⟩
  · exact Nat.lt_of_le_of_lt hLess (Nat.lt_of_succ_lt_succ hRounds)
  · rw [hRun]
    cases reply with
    | fail d q => rfl
    | ok left q =>
      have hq := hReply.2
      exact extend_of_tail hq.proper (by rw [hq.kind_eq]; exact ht) hPower

theorem Begins.of_iff (hf : fits ↔ more) (h : Begins expr power p rest fits e) :
    Begins expr power p rest more e :=
  propext hf ▸ h

/-- A term that may need parentheses: with them it is a head, and without them it binds tightly
enough for its place. -/
theorem begins_of_wrap (hExpr : expr.Exact n) (hp : Roomy n p) {layer c : Power} {φ : Phrase}
    (hLayer : Power.rank .logicalOr ≤ layer.rank) (hPhrase : ∀ d, e.phrase d = .wrap d layer φ)
    (hAhead : p.ahead = (e.phrase c).words ++ next :: rest)
    (hOpen : c.rank ≤ layer.rank → p.ahead = φ.words ++ next :: rest →
      Begins expr power p (next :: rest) (φ.nesting ≤ n) e) :
    Begins expr power p (next :: rest) ((e.phrase c).nesting ≤ n) e := by
  rw [hPhrase] at hAhead ⊢
  rcases Nat.lt_or_ge layer.rank c.rank with hlt | hle
  · rw [Phrase.wrap_of_lt hlt] at hAhead ⊢
    have hWhole : e.whole = φ.deeper := by
      rw [Term.whole, hPhrase, Phrase.wrap_of_le hLayer]
    have hWords : p.ahead = .symbol .openParen ::
        (e.whole.words ++ .symbol .closeParen :: next :: rest) := by
      simpa [hWhole] using hAhead
    refine .of_iff (show e.whole.nesting ≤ n ↔ _ by simp [hWhole]) ?_
    refine begins_of_head hp.proper .group ?_ (judged_group hExpr hp hWords)
    rw [Parser.kind_of_ahead hWords]
    rfl
  · rw [Phrase.wrap_of_le hle] at hAhead ⊢
    exact hOpen hle hAhead

theorem begins_of_literal (hp : p.Proper) {w : Word} {k : NodeKind}
    (hHead : Head.ofKind? w.kind = some .literal) (hAhead : p.ahead = w :: rest)
    (hKind : ∀ token : Token, token.word = w → literalKind token = .ok k)
    (hRead : ∀ t : Tree, t.exprOf t.expr? k = some e.expr) :
    Begins expr power p rest ((Phrase.word w).nesting ≤ n) e := by
  refine .of_iff (show True ↔ _ by simp)
    (begins_of_head hp .literal ?_ (judged_literal hp hAhead hKind hRead))
  rw [Parser.kind_of_ahead hAhead, hHead]

theorem begins_of_sign (hExpr : expr.Exact n) (hp : Roomy n p) {s : Symbol} {op : UnaryOp}
    (hs : (s, op) ∈ signs) {d : Power} (hd : d.rank ≤ 6) (hNext : Follows d next.token)
    (hAhead : p.ahead = .symbol s :: ((a.phrase .unary).words ++ next :: rest)) :
    Begins expr power p (next :: rest) ((a.phrase .unary).nesting + 1 ≤ n) (.unary op a) := by
  refine begins_of_head hp.proper .sign ?_
    (judged_sign hExpr hp hs (hNext.closes (by omega)).2 hAhead)
  rw [Parser.kind_of_ahead hAhead]
  exact head_of_sign hs

/-- An operator between two operands, by the left one. -/
theorem begins_of_binary (hExpr : expr.Exact n) (hPower : power.rank ≤ 6) (hp : Roomy n p)
    {op : BinaryOp} (hd : power.operand.rank ≤ op.layer.rank) (hNext : Follows op.layer next.token)
    (hWords : p.ahead = (a.phrase op.leftLayer).words ++
      .symbol op.symbol :: ((b.phrase op.rightLayer).words ++ next :: rest))
    (hLeft : ∀ {w : Word} {after : List Word}, power.operand.rank ≤ op.leftLayer.rank →
      Follows op.leftLayer w.token → p.ahead = (a.phrase op.leftLayer).words ++ w :: after →
      Begins expr power p (w :: after) ((a.phrase op.leftLayer).nesting ≤ n) a) :
    Begins expr power p (next :: rest) ((a.phrase op.leftLayer).nesting ≤ n ∧
      (b.phrase op.rightLayer).nesting < n) (.binary op a b) := by
  by_cases hOp : op = .pow
  · subst hOp
    have ht : Operator.ofKind? (Word.symbol .caret).kind = some (.exponent, .exponent) := rfl
    have hBegins := hLeft (Nat.le_succ_of_le hd) (Word.follows ht (Or.inl (by decide))) hWords
    refine hBegins.tail ht (Nat.lt_succ_of_le hPower) (by simp) fun left q hq => ?_
    exact judged_exponent hExpr hp (hNext.closes (by decide)).2 hq
  · have hMem := op.mem_operators hOp
    obtain ⟨hRank, -⟩ := Power.rank_of_mem hMem
    have ht : Operator.ofKind? (Word.symbol op.symbol).kind = _ :=
      (Operator.ofKind?_of_mem hMem).1
    rw [op.leftLayer_of_ne hOp] at hWords hLeft ⊢
    have hBegins := hLeft hd (Word.follows ht (Or.inr ⟨Nat.le_refl _, by omega⟩)) hWords
    refine hBegins.tail ht (Power.rank_lt_of_operand_le hd hRank) (by simp) fun left q hq => ?_
    exact judged_binary hExpr hp hOp (hNext.closes (by omega)).1 hq

/-- Every term is followed from its head on. -/
theorem begins_of_term (hExpr : expr.Exact n) (hPower : power.rank ≤ 6) (hp : Roomy n p) :
    ∀ (e : Term) {d : Power} {next : Word} {rest : List Word}, power.operand.rank ≤ d.rank →
      Follows d next.token → p.ahead = (e.phrase d).words ++ next :: rest →
      Begins expr power p (next :: rest) ((e.phrase d).nesting ≤ n) e
  | .num m, d, next, rest, _, _, hAhead => by
    refine begins_of_literal hp.proper rfl hAhead (k := .num m.value) ?_ fun _ => rfl
    intro token hw
    obtain ⟨hKind, hValue⟩ := Word.mk.inj hw
    rw [literalKind, hKind]
    simp only [hValue, m.parse?_eq]
  | .char ch, d, next, rest, _, _, hAhead => by
    refine begins_of_literal hp.proper rfl hAhead (k := .char ch) ?_ fun _ => rfl
    intro token hw
    obtain ⟨hKind, hValue⟩ := Word.mk.inj hw
    rw [literalKind, hKind]
    simp [hValue]
  | .str value, d, next, rest, _, _, hAhead => by
    refine begins_of_literal hp.proper rfl hAhead (k := .str value) ?_ fun _ => rfl
    intro token hw
    obtain ⟨hKind, hValue⟩ := Word.mk.inj hw
    rw [literalKind, hKind]
    simp only [hValue]
  | .ref f, d, next, rest, _, hNext, hAhead => by
    refine .of_iff (show True ↔ _ by simp [Term.phrase]) (begins_of_head hp.proper .name ?_
      (judged_ref hp.proper hAhead hNext.call))
    rw [Parser.kind_of_ahead hAhead]
    rfl
  | .call f args, d, next, rest, _, _, hAhead => by
    rw [Term.phrase, Term.phrases_eq_map] at hAhead ⊢
    refine .of_iff (show (Phrase.commas (args.map Term.whole)).nesting ≤ n ↔ _ by simp)
      (begins_of_head hp.proper .name ?_ (judged_call hExpr hp hAhead))
    rw [Parser.kind_of_ahead hAhead]
    rfl
  | .array elems, d, next, rest, _, _, hAhead => by
    rw [Term.phrase, Term.phrases_eq_map] at hAhead ⊢
    refine .of_iff (show (Phrase.commas (elems.map Term.whole)).nesting ≤ n ↔ _ by simp)
      (begins_of_head hp.proper .array ?_ (judged_array hExpr hp hAhead))
    rw [Parser.kind_of_ahead hAhead]
    rfl
  | .unary .abs a, d, next, rest, _, _, hAhead => by
    have hWords : p.ahead = .symbol .openAbs :: (a.whole.words ++ .symbol .closeAbs ::
        next :: rest) := by
      simpa [Term.phrase, Term.whole] using hAhead
    refine .of_iff (show a.whole.nesting ≤ n ↔ _ by simp [Term.phrase, Term.whole])
      (begins_of_head hp.proper .absolute ?_ (judged_absolute hExpr hp hWords))
    rw [Parser.kind_of_ahead hWords]
    rfl
  | .unary .neg a, d, next, rest, _, hNext, hAhead => by
    refine begins_of_wrap hExpr hp (by decide) (fun _ => rfl) hAhead fun hd hWords => ?_
    exact .of_iff (by simp) (begins_of_sign hExpr hp (by decide) hd hNext hWords)
  | .unary .not a, d, next, rest, _, hNext, hAhead => by
    refine begins_of_wrap hExpr hp (by decide) (fun _ => rfl) hAhead fun hd hWords => ?_
    exact .of_iff (by simp) (begins_of_sign hExpr hp (by decide) hd hNext hWords)
  | .binary op a b, d, next, rest, hd, hNext, hAhead => by
    refine begins_of_wrap hExpr hp op.rank_le_layer (fun _ => rfl) hAhead fun hle hWords => ?_
    simp only [Phrase.words_append, Phrase.words_symbol, Phrase.words_deeper, List.append_assoc,
      List.cons_append, List.nil_append] at hWords
    refine .of_iff (show (a.phrase op.leftLayer).nesting ≤ n ∧ (b.phrase op.rightLayer).nesting < n
      ↔ _ by simp) ?_
    exact begins_of_binary hExpr hPower hp (Nat.le_trans hd hle) (hNext.of_rank_le hle) hWords
      fun hLayer hFollows hAhead => begins_of_term hExpr hPower hp a hLayer hFollows hAhead
  | .element a b, d, next, rest, hd, _, hAhead => by
    have hWords : p.ahead = (a.phrase .index).words ++ .symbol .openBracket ::
        (b.whole.words ++ .symbol .closeBracket :: next :: rest) := by
      simpa [Term.phrase, Term.whole] using hAhead
    have ht : Operator.ofKind? (Word.symbol .openBracket).kind = some (.index, .index) := rfl
    have hLeft := begins_of_term hExpr hPower hp a (d := .index)
      (Nat.le_trans (Power.rank_operand_le_six hPower) (by decide))
      (Word.follows ht (Or.inl (by decide))) hWords
    refine .of_iff (show (a.phrase .index).nesting ≤ n ∧ b.whole.nesting ≤ n ↔ _ by
      simp [Term.phrase, Term.whole]) ?_
    refine hLeft.tail ht (Nat.lt_of_le_of_lt hPower (by decide)) (by simp; omega) ?_
    exact fun left q hq => judged_element hExpr hp hq
  | .slice a b c, d, next, rest, hd, _, hAhead => by
    have hWords : p.ahead = (a.phrase .index).words ++ .symbol .openBracket ::
        (b.whole.words ++ .symbol .dots :: (c.whole.words ++ .symbol .closeBracket ::
          next :: rest)) := by
      simpa [Term.phrase, Term.whole] using hAhead
    have ht : Operator.ofKind? (Word.symbol .openBracket).kind = some (.index, .index) := rfl
    have hLeft := begins_of_term hExpr hPower hp a (d := .index)
      (Nat.le_trans (Power.rank_operand_le_six hPower) (by decide))
      (Word.follows ht (Or.inl (by decide))) hWords
    refine .of_iff (show (a.phrase .index).nesting ≤ n ∧ b.whole.nesting ≤ n ∧ c.whole.nesting ≤ n
      ↔ _ by simp [Term.phrase, Term.whole]) ?_
    refine hLeft.tail ht (Nat.lt_of_le_of_lt hPower (by decide)) (by simp; omega) ?_
    exact fun left q hq => judged_slice hExpr hp hq

/-! ### Whole expressions -/

theorem judged_exprWith (hExpr : expr.Exact n) (hPower : power.rank ≤ 6) (hp : Roomy n p)
    (hNext : Closes power next.token)
    (hAhead : p.ahead = (e.phrase power.operand).words ++ next :: rest) :
    JudgedTerm ((e.phrase power.operand).nesting ≤ n) p (next :: rest) e
      (exprWith expr power p) := by
  have hFollows := hNext.follows hPower power.rank_le_operand
  obtain ⟨reply, rounds, hReply, hRounds, hRun⟩ :=
    begins_of_term hExpr hPower hp e (Nat.le_refl _) hFollows hAhead
  obtain ⟨k, rfl⟩ := Nat.exists_eq_succ_of_ne_zero (Nat.ne_zero_of_lt hRounds)
  rw [hRun]
  cases reply with
  | fail d q => exact hReply
  | ok id q =>
    have hStops : Stops power q.current := hNext.stops.of_kind hReply.2.kind_eq
    change JudgedTerm _ _ _ _ (extend expr power (k + 1) id q)
    rw [extend_of_stops hReply.2.proper hStops]
    exact hReply

/-- With `levels` levels left, exactly the terms that are nested less deep are read. -/
theorem exact_exprAt (levels : Nat) : ExprParser.Exact levels (exprAt levels) := by
  induction levels with
  | zero => exact fun _ _ _ _ => ⟨Nat.not_lt_zero _, rfl⟩
  | succ levels ih =>
    intro e c p next rest hc hp hAhead hNext
    have hLevels := hp.levels
    have hInside : Roomy levels { p with nesting := p.nesting + 1 } :=
      ⟨hp.proper.inside, by simp only; omega⟩
    exact .of_iff Nat.lt_succ_iff.symm
      (judged_nested hp (judged_exprWith ih hc hInside hNext hAhead))

end Parse

end StageScript

import StageScript.Proofs.Parse.Runs

/-!
# Bounds that are never met

The parsers of expressions and blocks count the levels that are left, and loops have a number of
rounds.  Neither is ever used up: parsing is what it would be without them.

Where a rule parses an expression or a block inside it, the levels are those that the current
nesting leaves, so `expr` and `block` are parsed in terms of themselves (`expr_eq`, `block_eq`).  A
loop takes a token in each round, and past the last token, which is then read again and again,
no round is followed by another one: more rounds than tokens do not matter (`Settles`).
-/

set_option synthInstance.maxSize 4000

namespace StageScript.Parse

variable {α β : Type}

theorem bind_congr_at {step : Parse α} {next other : α → Parse β} {p : Parser}
    (h : ∀ a q, step p = .ok a q → next a q = other a q) :
    (step >>= next) p = (step >>= other) p := by
  cases hs : step p with
  | ok a q => rw [bind_of_ok hs, bind_of_ok hs, h a q hs]
  | fail d q => rw [bind_of_fail hs, bind_of_fail hs]

theorem bind_congr_left {step other : Parse α} {p : Parser} (h : step p = other p)
    (next : α → Parse β) : (step >>= next) p = (other >>= next) p := by
  cases hs : step p with
  | ok a q => rw [bind_of_ok hs, bind_of_ok (h.symm.trans hs)]
  | fail d q => rw [bind_of_fail hs, bind_of_fail (h.symm.trans hs)]

/-! ### Levels -/

class SameAt (n : Nat) (step other : Parse α) : Prop where
  eq : ∀ p : Parser, p.nesting = n → step p = other p

section Levels

variable {n : Nat}

instance (priority := low) sameAt_refl (step : Parse α) : SameAt n step step := ⟨fun _ _ => rfl⟩

theorem SameAt.bind {step other : Parse α} {next last : α → Parse β} (hs : SameAt n step other)
    (hRuns : Runs Onward step) (hn : ∀ a, SameAt n (next a) (last a)) :
    SameAt n (step >>= next) (other >>= last) where
  eq p hp := by
    refine Eq.trans (bind_congr_at fun a q hOk => ?_) (bind_congr_left (hs.eq p hp) last)
    exact (hn a).eq q ((hRuns.related hOk).nesting.trans hp)

instance sameAt_bind (step other : Parse α) (next last : α → Parse β) [hs : SameAt n step other]
    [hRuns : Runs Onward step] [hn : ∀ a, SameAt n (next a) (last a)] :
    SameAt n (step >>= next) (other >>= last) :=
  hs.bind hRuns hn

instance sameAt_map (f : α → β) (step other : Parse α) [SameAt n step other]
    [Runs Onward step] : SameAt n (f <$> step) (f <$> other) :=
  sameAt_bind step other (fun a => pure (f a)) fun a => pure (f a)

instance sameAt_ite {c : Prop} [Decidable c] (step other step' other' : Parse α)
    [SameAt n step other] [SameAt n step' other'] :
    SameAt n (if c then step else step') (if c then other else other') := by
  split <;> infer_instance

instance sameAt_commaItems (close : TokenKind) (item other : Parse NodeId) [SameAt n item other]
    [Runs Onward item] (rounds : Nat) :
    SameAt n (commaItems close item rounds) (commaItems close other rounds) := by
  induction rounds with
  | zero => exact sameAt_refl _
  | succ rounds ih =>
    have := runs_commaItems (R := Onward) close item rounds
    unfold commaItems
    infer_instance

instance sameAt_commaList (close : Symbol) (item other : Parse NodeId) [SameAt n item other]
    [Runs Onward item] : SameAt n (commaList close item) (commaList close other) := by
  have hRuns : ∀ n, Runs Onward (commaItems (.symbol close) item n) := runs_commaItems _ item
  unfold commaList
  infer_instance

section Expressions

variable (expr other : ExprParser) [∀ power, SameAt n (expr power) (other power)]
  [∀ power, Runs Onward (expr power)]

instance sameAt_callArgs : SameAt n (callArgs expr) (callArgs other) := by
  unfold callArgs
  infer_instance

instance sameAt_head (kind : Head) : SameAt n (head expr kind) (head other kind) := by
  cases kind <;> unfold head
  case literal => infer_instance
  case name => unfold name; infer_instance
  case array => unfold arrayLiteral; infer_instance
  case group => unfold group; infer_instance
  case absolute => unfold absolute; infer_instance
  case sign => unfold sign; infer_instance

instance sameAt_tail (left : NodeId) (power : Power) (kind : Tail) :
    SameAt n (tail expr left power kind) (tail other left power kind) := by
  cases kind <;> unfold tail
  case binary =>
    unfold binary
    refine .bind inferInstance inferInstance fun token => ?_
    cases BinaryOp.ofKind? token.kind <;> infer_instance
  case exponent => unfold exponent; infer_instance
  case index => unfold index; infer_instance

instance sameAt_extend (power : Power) (rounds : Nat) (left : NodeId) :
    SameAt n (extend expr power rounds left) (extend other power rounds left) := by
  induction rounds generalizing left with
  | zero => exact sameAt_refl _
  | succ rounds ih =>
    rw [extend_succ, extend_succ]
    refine .bind inferInstance inferInstance fun found => ?_
    cases found <;> unfold extendBy <;> infer_instance

instance sameAt_exprWith (power : Power) :
    SameAt n (exprWith expr power) (exprWith other power) := by
  unfold exprWith
  refine .bind inferInstance inferInstance fun found => ?_
  cases found <;> infer_instance

end Expressions

section Statements

variable (inner other : Inner) [∀ power, SameAt n (inner.expr power) (other.expr power)]
  [∀ power, Runs Onward (inner.expr power)]

instance sameAt_condition : SameAt n (condition inner) (condition other) := by
  unfold condition
  infer_instance

instance sameAt_indices (expr other : ExprParser) [∀ power, SameAt n (expr power) (other power)]
    [∀ power, Runs Onward (expr power)] (rounds : Nat) :
    SameAt n (indices expr rounds) (indices other rounds) := by
  induction rounds with
  | zero => exact sameAt_refl _
  | succ rounds ih =>
    unfold indices
    infer_instance

instance sameAt_update (expr other : ExprParser) [∀ power, SameAt n (expr power) (other power)]
    [∀ power, Runs Onward (expr power)] (lhs : NodeId) (operator : Token) :
    SameAt n (update expr lhs operator) (update other lhs operator) := by
  unfold update
  split
  · infer_instance
  · infer_instance
  · split <;> infer_instance

variable [∀ decls, SameAt n (inner.block decls) (other.block decls)]
  [∀ decls, Runs Onward (inner.block decls)]

instance sameAt_elseBranches (rounds : Nat) :
    SameAt n (elseBranches inner rounds) (elseBranches other rounds) := by
  induction rounds with
  | zero => exact sameAt_refl _
  | succ rounds ih =>
    unfold elseBranches
    infer_instance

instance sameAt_caseBranches (rounds : Nat) :
    SameAt n (caseBranches inner rounds) (caseBranches other rounds) := by
  induction rounds with
  | zero => exact sameAt_refl _
  | succ rounds ih =>
    unfold caseBranches
    dsimp only
    infer_instance

instance sameAt_ascent : SameAt n (ascent inner) (ascent other) := by
  unfold ascent
  infer_instance

instance sameAt_form (kind : Form) : SameAt n (form inner kind) (form other kind) := by
  cases kind <;> unfold form
  case varDecl => unfold varDecl; infer_instance
  case callableDef => unfold callableDef; infer_instance
  case subDef => unfold subDef; infer_instance
  case entryRoutine => unfold entryRoutine; infer_instance
  case ifElse => unfold ifElse; infer_instance
  case loop => unfold loop; infer_instance
  case times => unfold times; infer_instance
  case whileLoop => unfold whileLoop; infer_instance
  case alternative => unfold alternative; infer_instance
  case localBlock => unfold localBlock; infer_instance
  case returnStmt => unfold returnStmt; infer_instance
  case assignOrCall => unfold assignOrCall; infer_instance
  all_goals infer_instance

instance sameAt_stmtWith : SameAt n (stmtWith inner) (stmtWith other) := by
  unfold stmtWith
  refine .bind inferInstance inferInstance fun found => ?_
  cases found <;> infer_instance

instance sameAt_stmts (stop : Parser → Bool) (rounds : Nat) :
    SameAt n (stmts inner stop rounds) (stmts other stop rounds) := by
  induction rounds with
  | zero => exact sameAt_refl _
  | succ rounds ih =>
    unfold stmts
    infer_instance

end Statements

instance sameAt_expr (power : Power) : SameAt n (exprAt (maxNesting - n) power) (expr power) where
  eq p hp := by
    subst hp
    rfl

instance sameAt_block (decls : List NodeId) :
    SameAt n (blockAt (maxNesting - n) decls) (block decls) where
  eq p hp := by
    subst hp
    rfl

/-- What a rule parses inside it is parsed at the place that it has come to. -/
theorem here_eq (rule : Inner → Parse α)
    [h : ∀ n, SameAt n (rule ⟨exprAt (maxNesting - n), blockAt (maxNesting - n)⟩)
      (rule ⟨expr, block⟩)] : here rule = rule ⟨expr, block⟩ :=
  funext fun p => (h p.nesting).eq p rfl

end Levels

theorem enter_of_le {p : Parser} (h : maxNesting ≤ p.nesting) : enter p = tooDeep p := if_pos h

/-- The levels inside a level that can be entered. -/
theorem levels_succ {p : Parser} (h : p.nesting < maxNesting) :
    maxNesting - p.nesting = maxNesting - (p.nesting + 1) + 1 := by
  omega

/-- An expression is parsed one level deeper, in terms of the expressions there. -/
theorem expr_eq (power : Power) : expr power = nested (exprWith expr power) := by
  funext p
  change exprAt (maxNesting - p.nesting) power p = _
  rcases Nat.lt_or_ge p.nesting maxNesting with h | h
  · rw [levels_succ h]
    refine bind_congr_at fun u q hEnter => ?_
    obtain ⟨-, rfl⟩ := enter_eq_ok hEnter
    have hSame := (sameAt_exprWith (exprAt (maxNesting - (p.nesting + 1))) expr power).eq
      { p with nesting := p.nesting + 1 } rfl
    simp only [hSame]
  · rw [Nat.sub_eq_zero_of_le h]
    exact (bind_of_fail (enter_of_le h) _).symm

/-- A block is parsed in terms of the expressions and blocks inside it. -/
theorem block_eq (decls : List NodeId) : block decls = blockWith ⟨expr, block⟩ decls := by
  funext p
  change blockAt (maxNesting - p.nesting) decls p = _
  rcases Nat.lt_or_ge p.nesting maxNesting with h | h
  · rw [levels_succ h]
    refine bind_congr_at fun first p₁ hFirst => ?_
    obtain ⟨-, -, rfl⟩ := expect_eq_ok hFirst
    refine bind_congr_at fun u p₂ hEnter => ?_
    obtain ⟨-, rfl⟩ := enter_eq_ok hEnter
    refine bind_congr_at fun u p₃ hScope => ?_
    cases hScope
    refine bind_congr_at fun u s hDecls => ?_
    have hs : Onward p.inBlock s := Runs.related hDecls
    refine bind_congr_at fun rounds s' hRounds => ?_
    cases hRounds
    refine bind_congr_left ?_ _
    exact (sameAt_stmts (n := p.nesting + 1) ⟨_, _⟩ ⟨expr, block⟩ _ _).eq s hs.nesting
  · rw [Nat.sub_eq_zero_of_le h]
    cases hFirst : expect (.symbol .openCurly) p with
    | ok first q =>
      obtain ⟨-, -, rfl⟩ := expect_eq_ok hFirst
      have hFull : enter p.advanced = tooDeep p.advanced := enter_of_le h
      have hOpen : expectSymbol .openCurly p = .ok () p.advanced := bind_of_ok hFirst _
      refine (bind_of_ok hOpen _).trans (Eq.symm ?_)
      exact (bind_of_ok hFirst _).trans (bind_of_fail hFull _)
    | fail d q =>
      exact (bind_of_fail (bind_of_fail hFirst _) _).trans (bind_of_fail hFirst _).symm

/-! ### Rounds -/

/-- A loop ends by itself: more rounds than there are tokens left do not change it. -/
def Settles (loop : Nat → Parse α) : Prop :=
  ∀ (p : Parser) (n : Nat), p.rounds ≤ n → loop n p = loop p.rounds p

theorem Settles.of_succ {loop : Nat → Parse α}
    (h : ∀ (n : Nat) (p : Parser), p.rounds ≤ n → loop (n + 1) p = loop n p) : Settles loop := by
  intro p n hn
  induction n, hn using Nat.le_induction with
  | base => rfl
  | succ n hn ih => exact (h n p hn).trans ih

/-- What one round keeps, the whole loop keeps. -/
theorem Settles.of_round {loop : Nat → Parse α}
    (h : ∀ n : Nat, (∀ q : Parser, q.rounds ≤ n → loop (n + 1) q = loop n q) →
      ∀ p : Parser, p.rounds ≤ n + 1 → loop (n + 2) p = loop (n + 1) p) : Settles loop := by
  refine .of_succ fun n => ?_
  induction n with
  | zero => exact fun p hn => absurd hn (Nat.not_succ_le_zero _)
  | succ n ih => exact h n ih

def Past (p : Parser) : Prop := p.tokens.size ≤ p.pos

section Past

variable {p q : Parser}

theorem Past.mono (h : Past p) (g : Onward p q) : Past q := by
  rw [Past, g.tokens]
  exact Nat.le_trans h g.pos_le

/-- The last token is read again and again. -/
theorem Past.kind_eq (h : Past p) (g : Onward p q) : q.kind = p.kind := by
  have hMin : ∀ r : Parser, Past r → min r.pos (r.tokens.size - 1) = r.tokens.size - 1 := by
    intro r hr
    rw [Past] at hr
    omega
  rw [Parser.kind, Parser.kind, Parser.current, Parser.current, hMin p h, hMin q (h.mono g),
    g.tokens, g.file]

/-- A round that took a token leaves one round less to go. -/
theorem rounds_le {n : Nat} (g : Onward p q) (hTaken : p.pos < q.pos) (h : ¬Past p)
    (hn : p.rounds ≤ n + 1) : q.rounds ≤ n := by
  rw [Past] at h
  rw [Parser.rounds] at hn ⊢
  rw [g.tokens]
  omega

variable {expr : ExprParser} {id : NodeId}

theorem exists_of_advance {step : Parse α} {next : Token → α → Parse β} {b : β}
    (h : (advance >>= fun token => step >>= next token) p = .ok b q) :
    ∃ a r, step p.advanced = .ok a r := by
  obtain ⟨token, p', hAdvance, h⟩ := bind_eq_ok h
  cases hAdvance
  obtain ⟨a, r, hStep, -⟩ := bind_eq_ok h
  exact ⟨a, r, hStep⟩

/-- A head that is a symbol goes on with an expression. -/
theorem exists_expr_of_head {kind : Head} {s : Symbol} (hPast : Past p) (hs : p.kind = .symbol s)
    (hk : Head.ofKind? p.kind = some kind) (h : head expr kind p = .ok id q) :
    ∃ power inner r, expr power p.advanced = .ok inner r := by
  have hCases := Head.ofKind?_cases hk
  cases kind with
  | literal => simp [hs] at hCases
  | name => simp [hs] at hCases
  | array =>
    obtain ⟨token, p', hAdvance, h⟩ := bind_eq_ok h
    cases hAdvance
    obtain ⟨items, r, hList, -⟩ := bind_eq_ok h
    obtain ⟨n, p', hLook, hList⟩ := bind_eq_ok hList
    cases hLook
    obtain ⟨items, r, hItems, -⟩ := bind_eq_ok hList
    obtain ⟨closed, p', hLook, hItems⟩ := bind_eq_ok hItems
    cases hLook
    have hOpen : p.advanced.kind = .symbol .openBracket :=
      (hPast.kind_eq (.advance p)).trans hCases
    rw [if_neg (by simp [hOpen])] at hItems
    obtain ⟨inner, r, hInner, -⟩ := bind_eq_ok hItems
    exact ⟨_, inner, r, hInner⟩
  | group => exact ⟨_, exists_of_advance h⟩
  | absolute => exact ⟨_, exists_of_advance h⟩
  | sign => exact ⟨_, exists_of_advance h⟩

/-- A tail goes on with an expression. -/
theorem exists_expr_of_tail {left : NodeId} {power : Power} {kind : Tail}
    (h : tail expr left power kind p = .ok id q) :
    ∃ power inner r, expr power p.advanced = .ok inner r := by
  cases kind with
  | binary =>
    obtain ⟨token, p', hAdvance, h⟩ := bind_eq_ok h
    cases hAdvance
    cases hOp : BinaryOp.ofKind? p.current.kind with
    | none =>
      simp only [hOp] at h
      cases h
    | some op =>
      simp only [hOp] at h
      obtain ⟨inner, r, hInner, -⟩ := bind_eq_ok h
      exact ⟨_, inner, r, hInner⟩
  | exponent => exact ⟨_, exists_of_advance h⟩
  | index => exact ⟨_, exists_of_advance h⟩

/-- Past the last token no symbol starts an expression: each level would begin with the same
symbol again, until they are too deep. -/
theorem exprAt_past {levels : Nat} {power : Power} (hPast : Past p)
    (h : exprAt levels power p = .ok id q) (s : Symbol) : p.kind ≠ .symbol s := by
  intro hs
  induction levels generalizing p q power id with
  | zero => cases h
  | succ levels ih =>
    obtain ⟨-, r, h, -⟩ := nested_eq_ok h
    obtain ⟨found, p', hLook, h⟩ := bind_eq_ok h
    cases found with
    | none => cases h
    | some kind =>
      obtain ⟨hFound, rfl⟩ := Reply.ok.inj hLook
      obtain ⟨left, t, hHead, -⟩ := bind_eq_ok h
      have hKnown : p.head? p.kind = some kind := hFound
      have hk : Head.ofKind? p.kind = some kind := by
        rw [Parser.head?] at hKnown
        split at hKnown
        · exact hKnown
        · cases hKnown
      have hInside : Past { p with nesting := p.nesting + 1 } := hPast
      obtain ⟨power, inner, u, hInner⟩ := exists_expr_of_head hInside hs hk hHead
      have hSame := hInside.kind_eq (.advance _)
      exact ih (hInside.mono (.advance _)) hInner (hSame.trans hs)

/-- Past a symbol that is the last token, no expression follows. -/
theorem exprAt_past_advanced {levels : Nat} {power : Power} {s : Symbol} (hPast : Past p)
    (hs : p.kind = .symbol s) : exprAt levels power p.advanced ≠ .ok id q := fun h =>
  exprAt_past (hPast.mono (.advance p)) h s ((hPast.kind_eq (.advance p)).trans hs)

theorem exists_symbol_of_operator? {found : Tail × Power} (h : p.operator? p.kind = some found) :
    ∃ s, p.kind = .symbol s := by
  rw [Parser.operator?] at h
  split at h
  · rcases Operator.ofKind?_cases h with ⟨-, s, op, -, hs⟩ | ⟨-, -, hs⟩ | ⟨-, -, hs⟩
    · exact ⟨s, hs⟩
    · exact ⟨_, hs⟩
    · exact ⟨_, hs⟩
  · cases h

end Past

theorem eat_eq_ok {kind : TokenKind} {p q : Parser} (h : eat kind p = .ok true q) :
    p.kind = kind ∧ q = p.advanced := by
  rw [eat] at h
  split at h <;> cases h
  exact ⟨‹_›, rfl⟩

/-- Items with commas between them, if a comma past the last token is no item. -/
theorem settles_commaItems (close : TokenKind) (item : Parse NodeId) [Runs Onward item]
    (hItem : ∀ {p q : Parser} {id : NodeId}, Past p → item p = .ok id q →
      p.kind ≠ .symbol .comma) : Settles (commaItems close item) := by
  refine .of_round fun n ih p hn => ?_
  refine bind_congr_at fun closed p' hLook => ?_
  cases hLook
  split
  · rfl
  refine bind_congr_at fun id q hFirst => ?_
  have hq : Onward p q := Runs.related hFirst
  refine bind_congr_at fun more r hMore => ?_
  cases more with
  | false => rfl
  | true =>
    obtain ⟨hComma, rfl⟩ := eat_eq_ok hMore
    refine bind_congr_left (ih _ (rounds_le (hq.trans (.advance q)) ?_ ?_ hn)) _
    · exact Nat.lt_succ_of_le hq.pos_le
    · exact fun hPast => hItem hPast hFirst ((hPast.kind_eq hq).symm.trans hComma)

theorem settles_extend (levels : Nat) (power : Power) (left : NodeId) :
    Settles fun n => extend (exprAt levels) power n left := by
  refine .of_succ fun n => ?_
  induction n generalizing left with
  | zero => exact fun p hn => absurd hn (Nat.not_succ_le_zero _)
  | succ n ih =>
    intro p hn
    rw [extend_succ, extend_succ]
    refine bind_congr_at fun found p' hLook => ?_
    cases found with
    | none => rfl
    | some found =>
      obtain ⟨hFound, rfl⟩ := Reply.ok.inj hLook
      rw [extendBy, extendBy]
      split
      · rfl
      refine bind_congr_at fun more q hTail => ?_
      have hq : Onward p q := Runs.related hTail
      refine ih more q (rounds_le hq (Takes.pos_lt hTail) (fun hPast => ?_) hn)
      obtain ⟨s, hs⟩ := exists_symbol_of_operator? hFound
      obtain ⟨_, inner, r, hInner⟩ := exists_expr_of_tail hTail
      exact exprAt_past_advanced hPast hs hInner

theorem settles_indices (levels : Nat) : Settles (indices (exprAt levels)) := by
  refine .of_round fun n ih p hn => ?_
  refine bind_congr_at fun more q hMore => ?_
  cases more with
  | false => rfl
  | true =>
    obtain ⟨hOpen, rfl⟩ := eat_eq_ok hMore
    refine bind_congr_at fun id q hIndex => ?_
    refine bind_congr_at fun u r hClose => ?_
    have hr : Onward p.advanced r := .trans (Runs.related hIndex) (Runs.related hClose)
    refine bind_congr_left (ih r (rounds_le (.trans (.advance p) hr) hr.pos_le ?_ hn)) _
    exact fun hPast => exprAt_past_advanced hPast hOpen hIndex

section Statements

variable (levels : Nat)

theorem settles_elseBranches : Settles (elseBranches ⟨exprAt levels, blockAt levels⟩) := by
  refine .of_round fun n ih p hn => ?_
  refine bind_congr_at fun more p' hLook => ?_
  cases hLook
  split
  · rename_i hElse
    rw [decide_eq_true_eq] at hElse
    refine bind_congr_at fun first p' hAdvance => ?_
    cases hAdvance
    refine bind_congr_at fun more q hMore => ?_
    cases more with
    | false => rfl
    | true =>
      obtain ⟨hIf, rfl⟩ := eat_eq_ok hMore
      refine bind_congr_at fun cond q hCond => ?_
      refine bind_congr_at fun body r hBody => ?_
      refine bind_congr_at fun branch s hBranch => ?_
      have hs : Onward p.advanced.advanced s :=
        .trans (Runs.related hCond) (.trans (Runs.related hBody) (Runs.related hBranch))
      have hp : Onward p s := (Onward.advance p).trans (.trans (.advance _) hs)
      refine bind_congr_left (ih s (rounds_le hp ?_ (fun hPast => ?_) hn)) _
      · exact (Nat.lt_succ_of_lt (Nat.lt_succ_self p.pos)).trans_le hs.pos_le
      · have hSame := hPast.kind_eq (.advance p)
        rw [hIf, hElse] at hSame
        cases hSame
  · rfl

theorem settles_caseBranches : Settles (caseBranches ⟨exprAt levels, blockAt levels⟩) := by
  refine .of_round fun n ih p hn => ?_
  refine bind_congr_at fun more p' hLook => ?_
  cases hLook
  split
  · rename_i hCase
    rw [decide_eq_true_eq] at hCase
    refine bind_congr_at fun first p' hAdvance => ?_
    cases hAdvance
    refine bind_congr_at fun values q hValues => ?_
    dsimp only
    split
    · rfl
    refine bind_congr_at fun body r hBody => ?_
    refine bind_congr_at fun branch s hBranch => ?_
    have hs : Onward p.advanced s :=
      .trans (Runs.related hValues) (.trans (Runs.related hBody) (Runs.related hBranch))
    refine bind_congr_left (ih s (rounds_le (.trans (.advance p) hs) hs.pos_le ?_ hn)) _
    intro hPast
    obtain ⟨u, t, hOpen, -⟩ := bind_eq_ok hValues
    have hSame := hPast.kind_eq (.advance p)
    rw [(expectSymbol_eq_ok hOpen).1, hCase] at hSame
    cases hSame
  · rfl

theorem settles_stmts (stop : Parser → Bool) :
    Settles (stmts ⟨exprAt levels, blockAt levels⟩ stop) := by
  refine .of_round fun n ih p hn => ?_
  refine bind_congr_at fun more p' hLook => ?_
  cases hLook
  split
  · rename_i hMore
    refine bind_congr_at fun found q hStmt => ?_
    have hq : Onward p q := Runs.related hStmt
    refine bind_congr_left (ih q (rounds_le hq (Takes.pos_lt hStmt) (fun hPast => ?_) hn)) _
    simp only [Parser.hasTokens, Bool.and_eq_true, decide_eq_true_eq] at hMore
    exact absurd hMore.1.1 (Nat.not_lt_of_le hPast)
  · rfl

end Statements

end StageScript.Parse

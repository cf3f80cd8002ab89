import StageScript.Proofs.Parse.Expr
import StageScript.Proofs.Twin.Steps

/-!
# Expressions side by side

No token of an expression can end a statement, so parsers that are side by side and see the same
words before an expression do so after it too.  The rounds of a loop are bounded by the tokens
that are left; they need not be the same on both sides, but they run out together.
-/

set_option synthInstance.maxSize 4000

namespace StageScript.Twin

open Parse

variable {P : Twin} {σ σ' : Option Nat} {clear : Prop} {links : Links} {p q : Parser}
  {expr : ExprParser}

/-- Both parsers make one node each, in the parentheses of an alternative or outside of them. -/
def SimItem (P : Twin) (item : Parse NodeId) : Prop :=
  ∀ (σ : Option Nat) (links : Links), σ ≠ some 0 → Sim P (P.Abreast σ True links) item item
    fun a b => P.Abreast σ True (([a], [b]) :: links)

def SimExpr (P : Twin) (expr : ExprParser) : Prop := ∀ power, SimItem P (expr power)

/-! ### Lists -/

/-- Nothing is related to nothing. -/
theorem Abreast.nil (h : P.Abreast σ clear links p q) :
    P.Abreast σ clear (([], []) :: links) p q :=
  h.relink fun _ hρ => .cons .nil hρ

/-- Links of heads and of tails make a link of lists. -/
theorem Abreast.cons {x y : NodeId} {xs ys : List NodeId}
    (h : P.Abreast σ clear ((xs, ys) :: ([x], [y]) :: links) p q) :
    P.Abreast σ clear ((x :: xs, y :: ys) :: links) p q :=
  h.relink fun _ hρ => .cons (.cons hρ.tail.one hρ.list) hρ.tail.tail

theorem Abreast.isEmpty_eq {xs ys : List NodeId} (h : P.Abreast σ clear ((xs, ys) :: links) p q) :
    ys.isEmpty = xs.isEmpty := by
  obtain ⟨ρ, -, -, hHold, -⟩ := h.nodes
  cases hHold.list <;> rfl

/-- If a loop of the left parser has rounds left, so has the one of the right parser. -/
theorem not_rounds_zero {i j n : Nat} (h : P.rounds i j (n + 1) 0) : False :=
  Nat.succ_ne_zero n ((P.rounds_zero h).mpr rfl)

theorem Abreast.rounds (h : P.Abreast σ clear links p q) :
    P.rounds p.pos q.pos p.rounds q.rounds := by
  rw [Parser.rounds, Parser.rounds, h.left, h.right]
  exact P.rounds_self h.meets

theorem Sim.rounds {γ δ : Type} {f : Nat → Parse γ} {g : Nat → Parse δ}
    {post : γ → δ → Parser → Parser → Prop}
    (h : ∀ n m, Sim P (fun p q => P.Abreast σ clear links p q ∧ P.rounds p.pos q.pos n m)
      (f n) (g m) post) :
    Sim P (P.Abreast σ clear links) (Parse.look Parser.rounds >>= f)
      (Parse.look Parser.rounds >>= g) post :=
  fun p q hpq => h p.rounds q.rounds p q ⟨hpq, hpq.rounds⟩

/-- A loop keeps the parsers side by side if each of its rounds does. -/
theorem Sim.of_round {γ : Type} {f : Nat → Parse γ} {post : Links → γ → γ → Parser → Parser → Prop}
    (n m : Nat) (links : Links)
    (hZero : ∀ links, Sim P (P.Abreast σ clear links) (f 0) (f 0) (post links))
    (hSucc : ∀ n m, (∀ links, Sim P
        (fun p q => P.Abreast σ clear links p q ∧ P.rounds p.pos q.pos n m) (f n) (f m)
        (post links)) →
      ∀ links, Sim P
        (fun p q => P.Abreast σ clear links p q ∧ P.rounds p.pos q.pos (n + 1) (m + 1))
        (f (n + 1)) (f (m + 1)) (post links)) :
    Sim P (fun p q => P.Abreast σ clear links p q ∧ P.rounds p.pos q.pos n m) (f n) (f m)
      (post links) := by
  induction n generalizing m links with
  | zero =>
    rintro p q ⟨hpq, hRounds⟩
    rw [(P.rounds_zero hRounds).mp rfl]
    exact hZero links p q hpq
  | succ n ih =>
    cases m with
    | zero => exact fun p q hpq => (not_rounds_zero hpq.2).elim
    | succ m => exact hSucc n m (ih m) links

theorem sim_commaItems {item : Parse NodeId} [Parse.Runs Onward item] (h : SimItem P item)
    (close : TokenKind) (hσ : σ ≠ some 0) (n m : Nat) (links : Links) :
    Sim P (fun p q => P.Abreast σ True links p q ∧ P.rounds p.pos q.pos n m)
      (commaItems close item n) (commaItems close item m)
      fun as bs => P.Abreast σ True ((as, bs) :: links) := by
  apply Sim.of_round n m links
  · exact fun _ _ _ hpq => .ok hpq.nil
  · rintro n m ih links p q ⟨hpq, hRounds⟩
    have hItems := runs_commaItems (R := Onward) close item n
    refine hpq.ifAt (fun _ => .ok hpq.nil) ?_
    refine (h σ links hσ p q hpq).self.bind fun a b p' q' ⟨hMid, hLeft, hRight⟩ => ?_
    have hp : Onward p p' := Runs.related hLeft
    have hq : Onward q q' := Runs.related hRight
    refine hMid.ifEat ⟨rfl, rfl⟩ (fun hComma => ?_) (.ok hMid.nil.cons)
    have hRest : P.rounds p'.advanced.pos q'.advanced.pos n m :=
      P.rounds_succ hRounds (Nat.lt_succ_of_le hp.pos_le) (Nat.lt_succ_of_le hq.pos_le)
        hComma.meets
    exact (ih _ _ _ ⟨hComma, hRest⟩).bind fun as bs p q h => .ok h.cons

theorem sim_commaList {item : Parse NodeId} [Parse.Runs Onward item] (h : SimItem P item)
    {close : Symbol} (hσ : σ ≠ some 0) (hClose : (TokenKind.symbol close).Passes σ σ')
    (links : Links) :
    Sim P (P.Abreast σ True links) (commaList close item) (commaList close item)
      fun as bs => P.Abreast σ' True ((as, bs) :: links) := by
  refine .rounds fun n m => (sim_commaItems h _ hσ n m links).bind fun as bs => ?_
  exact (sim_expectSymbol hClose).bind fun _ _ => .pure fun _ _ h => h

/-- With one more parenthesis, it is not the first one. -/
theorem map_succ_ne (σ : Option Nat) : σ.map (· + 1) ≠ some 0 := by
  cases σ <;> simp

theorem SimExpr.callArgs [∀ power, Parse.Runs Onward (expr power)] (h : SimExpr P expr)
    (hσ : σ ≠ some 0) (links : Links) :
    Sim P (P.Abreast σ True links) (callArgs expr) (callArgs expr)
      fun as bs => P.Abreast σ True ((as, bs) :: links) :=
  (sim_expectSymbol ⟨rfl, rfl⟩).bind fun _ _ =>
    sim_commaList (h _) (map_succ_ne σ) (TokenKind.passes_closeParen hσ) links

/-! ### Heads and tails -/

/-- The parentheses behind the first token of an expression. -/
def headParens (σ : Option Nat) : Head → Option Nat
  | .group => σ.map (· + 1)
  | _ => σ

theorem passes_of_head {kind : Head} (h : p.head? p.kind = some kind) :
    p.kind.Passes σ (headParens σ kind) := by
  rw [Parser.head?] at h
  split at h
  · unfold Head.ofKind? at h
    split at h <;> cases h <;> simp only [*] <;> exact ⟨rfl, rfl⟩
  · cases h

theorem passes_of_operator {found : Operator} (h : p.operator? p.kind = some found) :
    p.kind.Passes σ σ := by
  rw [Parser.operator?] at h
  split at h
  · obtain ⟨tail, hTail, -⟩ := Option.bind_eq_some_iff.mp h
    unfold Tail.ofKind? at hTail
    split at hTail <;> cases hTail <;> simp only [*] <;> exact ⟨rfl, rfl⟩
  · cases h

theorem sim_literal : Sim P (fun p q => P.Abreast σ True links p q ∧ p.kind.Passes σ σ) literal
    literal fun a b => P.Abreast σ True (([a], [b]) :: links) := by
  refine .first fun token => ?_
  cases hLiteral : literalKind token with
  | ok k =>
    obtain ⟨hDefinition, hEntries, hChildren⟩ := literalKind_ok hLiteral
    exact sim_push [] (fun _ _ => .same hChildren hEntries hDefinition)
  | error c => exact sim_fail fun _ => rfl

theorem sim_head [∀ power, Parse.Runs Onward (expr power)] (h : SimExpr P expr) (hσ : σ ≠ some 0)
    (kind : Head) :
    Sim P (fun p q => P.Abreast σ True links p q ∧ p.kind.Passes σ (headParens σ kind))
      (head expr kind) (head expr kind) fun a b => P.Abreast σ True (([a], [b]) :: links) := by
  cases kind with
  | literal => exact sim_literal
  | name =>
    refine .first fun token => .ifAt ?_ ?_
    · refine (h.callArgs hσ _).bind fun args args' => ?_
      exact sim_pushFrom [(args, args')] (fun _ hρ => .call hρ.list)
    · exact sim_push [] (fun _ _ => .same rfl rfl rfl)
  | array =>
    refine .first fun token => ?_
    refine (sim_commaList (h _) hσ ⟨rfl, rfl⟩ _).bind fun elems elems' => ?_
    exact sim_pushFrom [(elems, elems')] (fun _ hρ => .array hρ.list)
  | group =>
    refine .first fun _ => (h _ _ _ (map_succ_ne σ)).bind fun inner inner' => ?_
    refine (sim_expectSymbol (TokenKind.passes_closeParen hσ)).bind fun _ _ => ?_
    exact .pure fun _ _ h => h
  | absolute =>
    refine .first fun token => (h _ _ _ hσ).bind fun x x' => ?_
    refine (sim_expectSymbol ⟨rfl, rfl⟩).bind fun _ _ => ?_
    exact sim_pushFrom [([x], [x'])] (fun _ hρ => .unary hρ.one)
  | sign =>
    refine .first fun token => ?_
    refine (h _ _ _ hσ).bind fun x x' => ?_
    exact sim_pushFrom [([x], [x'])] (fun _ hρ => .unary hρ.one)

theorem sim_tail [∀ power, Parse.Runs Onward (expr power)] (h : SimExpr P expr) (hσ : σ ≠ some 0)
    (left left' : NodeId) (power : Power) (kind : Tail) :
    Sim P (fun p q => P.Abreast σ True (([left], [left']) :: links) p q ∧ p.kind.Passes σ σ)
      (tail expr left power kind) (tail expr left' power kind)
      fun a b => P.Abreast σ True (([a], [b]) :: links) := by
  cases kind with
  | binary =>
    refine .first fun token => ?_
    cases BinaryOp.ofKind? token.kind with
    | none => exact sim_fail fun _ => rfl
    | some op =>
      refine (h _ _ _ hσ).bind fun right right' => ?_
      exact sim_pushBetween [([right], [right']), ([left], [left'])]
        (fun _ hρ => .binary hρ.tail.one hρ.one) (by simp) (by simp)
  | exponent =>
    refine .first fun _ => (h _ _ _ hσ).bind fun right right' => ?_
    exact sim_pushBetween [([right], [right']), ([left], [left'])]
      (fun _ hρ => .binary hρ.tail.one hρ.one) (by simp) (by simp)
  | index =>
    refine .first fun _ => (h _ _ _ hσ).bind fun start start' => .ifEat ⟨rfl, rfl⟩ ?_ ?_
    · refine (h _ _ _ hσ).bind fun stop stop' => ?_
      refine .between [([stop], [stop']), ([start], [start'])]
        (fun _ hρ => .range hρ.tail.one hρ.one) (by simp) (by simp) fun bounds bounds' => ?_
      refine (sim_expectSymbol ⟨rfl, rfl⟩).bind fun _ _ => ?_
      exact sim_pushAfter [([bounds], [bounds']), ([left], [left'])]
        (fun _ hρ => .slice hρ.tail.one hρ.one) (by simp) (by simp)
    · refine (sim_expectSymbol ⟨rfl, rfl⟩).bind fun _ _ => ?_
      exact sim_pushAfter [([start], [start']), ([left], [left'])]
        (fun _ hρ => .element hρ.tail.one hρ.one) (by simp) (by simp)

/-! ### Whole expressions -/

theorem Abreast.head?_eq (h : P.Abreast σ True links p q) : q.head? q.kind = p.head? p.kind := by
  rw [Parser.head?, Parser.head?, h.kind_eq, h.grammar]

theorem Abreast.operator?_eq (h : P.Abreast σ True links p q) :
    q.operator? q.kind = p.operator? p.kind := by
  rw [Parser.operator?, Parser.operator?, h.kind_eq, h.grammar]

theorem sim_extend [∀ power, Parse.Runs Onward (expr power)] (h : SimExpr P expr)
    (hσ : σ ≠ some 0) (power : Power) (n : Nat) : ∀ (m : Nat) (left left' : NodeId) (links : Links),
    Sim P (fun p q => P.Abreast σ True (([left], [left']) :: links) p q ∧ P.rounds p.pos q.pos n m)
      (extend expr power n left) (extend expr power m left')
      fun a b => P.Abreast σ True (([a], [b]) :: links) := by
  induction n with
  | zero =>
    rintro m left left' links p q ⟨hpq, hRounds⟩
    rw [(P.rounds_zero hRounds).mp rfl]
    exact .ok hpq
  | succ n ih =>
    intro m left left' links
    cases m with
    | zero => exact fun p q hpq => (not_rounds_zero hpq.2).elim
    | succ m =>
      rw [extend_succ, extend_succ]
      refine .look (fun _ _ h => h.1.operator?_eq) fun found => ?_
      cases found with
      | none => exact .pure fun _ _ h => h.1.1
      | some tighter =>
        by_cases hLoose : tighter.2.rank ≤ power.rank
        · simp only [extendBy, if_pos hLoose]
          exact .pure fun _ _ h => h.1.1
        · simp only [extendBy, if_neg hLoose]
          rintro p q ⟨⟨hpq, hRounds⟩, hTail⟩
          refine (sim_tail h hσ left left' _ _ p q ⟨hpq, passes_of_operator hTail⟩).self.bind ?_
          rintro a b p' q' ⟨hMid, hLeft, hRight⟩
          refine ih m a b links p' q' ⟨hMid, ?_⟩
          exact P.rounds_succ hRounds (Takes.pos_lt hLeft) (Takes.pos_lt hRight) hMid.meets

theorem sim_exprWith [∀ power, Parse.Runs Onward (expr power)] (h : SimExpr P expr) :
    SimExpr P (exprWith expr) := by
  intro power σ links hσ
  refine .look (fun _ _ h => h.head?_eq) fun found => ?_
  cases found with
  | none => exact (sim_unexpected _).strengthen fun _ _ h => h.1
  | some kind =>
    refine ((sim_head h hσ kind).strengthen fun p q hpq => ⟨hpq.1, passes_of_head hpq.2⟩).bind ?_
    exact fun a b => .rounds fun n m => sim_extend h hσ power n m a b links

theorem sim_exprAt (P : Twin) (levels : Nat) : SimExpr P (exprAt levels) := by
  induction levels with
  | zero => exact fun _ _ _ _ => sim_tooDeep
  | succ levels ih =>
    exact fun power σ links hσ => sim_nested (sim_exprWith ih power σ links hσ)

end StageScript.Twin

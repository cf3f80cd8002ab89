import Mathlib
import StageScript.Proofs.Grammar.Complete
import StageScript.Proofs.Grammar.Sound
import StageScript.Proofs.Parse.Script
import StageScript.Proofs.Token.Literal

/-!
# The parser recognises the grammar

A parser of expressions that stands anywhere in the tokens of a source replies with a node just
when the grammar derives a word there that is followed by no operator.  It takes exactly this
word, and the node shows the tree of the derivation.
-/

namespace StageScript

/-- The parser of a source that was read is proper. -/
theorem Parser.Proper.of_tokenize {source file : String} {tokens : List Token}
    (h : tokenize source file = .ok tokens) {p : Parser} (hTokens : p.tokens.toList = tokens)
    (hGrammar : p.knowsGrammar = true) : p.Proper :=
  ⟨hGrammar, _, _, hTokens.trans (tokenize_eq_ok h).2, rfl⟩

namespace Parse

variable {p q : Parser} {id : NodeId}

/-- What is parsed is derived, nested within the limit, and followed by no operator. -/
theorem found_expr (hp : p.Proper) (h : expr .lowest p = .ok id q) :
    (∃ n, p.nesting + n < maxNesting ∧ Found n .logicalOr p id q) ∧ ¬ q.kind.IsInfix ∧
      q.kind ≠ .symbol .openBracket := by
  obtain ⟨⟨n, hn, hFound⟩, hStops⟩ :=
    sound_exprAt (maxNesting - p.nesting) (c := .lowest) (by decide) hp h
  refine ⟨⟨n, by omega, hFound⟩, Operator.ofKind?_eq_none_iff.mp ?_⟩
  cases ht : Operator.ofKind? q.kind with
  | none => rfl
  | some found =>
    -- No operator is as loose as the place of a whole expression.
    have hRank : found.2.rank ≤ 0 := hStops found.1 found.2 ht
    rcases Operator.ofKind?_cases ht with ⟨-, s, op, hs, -⟩ | ⟨-, hPower, -⟩ | ⟨-, hPower, -⟩
    · rw [Power.eq_of_rank_eq (d := .lowest) (Nat.le_zero.mp hRank)] at hs
      cases hs
    · rw [hPower] at hRank
      exact absurd hRank (by decide)
    · rw [hPower] at hRank
      exact absurd hRank (by decide)

/-- What is derived, nested within the limit, and followed by no operator, is parsed. -/
theorem yields_expr {n : Nat} {w rest : List Token} {e : Expr} {next : Token} (hp : p.Proper)
    (h : Derives n .logicalOr w e) (hn : p.nesting + n < maxNesting)
    (hLeft : p.left = w ++ next :: rest) (hInfix : ¬ next.kind.IsInfix)
    (hBracket : next.kind ≠ .symbol .openBracket) (hParen : next.kind ≠ .symbol .openParen) :
    Yields (expr .lowest) p w e := by
  have hNone := Operator.ofKind?_eq_none_iff.mpr ⟨hInfix, hBracket⟩
  refine complete_exprAt (maxNesting - p.nesting) (c := .lowest) (by omega) (by decide) h
    ⟨hp, by omega⟩ hLeft ⟨hParen, fun tail t ht => ?_⟩
  rw [hNone] at ht
  cases ht

end Parse

/-- At any place in the tokens of a source, the parser of expressions recognises exactly the
words of the grammar, and replies with the tree of their derivation; every literal token is a
word of the grammar. -/
theorem expr_recognises_grammar {source file : String} {tokens : List Token}
    (h : tokenize source file = .ok tokens) {p : Parser} (hTokens : p.tokens.toList = tokens)
    (hGrammar : p.knowsGrammar = true) :
    (∀ id q, Parse.expr .lowest p = .ok id q → ∃ n w e, Took p w q ∧
      Derives n .logicalOr w e ∧ p.nesting + n < maxNesting ∧ Shows q.tree id e ∧
      ¬ q.kind.IsInfix ∧ q.kind ≠ .symbol .openBracket) ∧
    (∀ n w e next rest, Derives n .logicalOr w e → p.nesting + n < maxNesting →
      p.left = w ++ next :: rest → ¬ next.kind.IsInfix → next.kind ≠ .symbol .openBracket →
      next.kind ≠ .symbol .openParen →
      ∃ id q, Parse.expr .lowest p = .ok id q ∧ Took p w q ∧ Shows q.tree id e) ∧
    (∀ token ∈ tokens, token.kind = .number ∨ token.kind = .char ∨ token.kind = .string →
      ∃ e, ∀ n, Derives n .primary [token] e) := by
  have hp := Parser.Proper.of_tokenize h hTokens hGrammar
  refine ⟨?_, ?_, ?_⟩
  · intro id q hRun
    obtain ⟨⟨n, hn, w, e, hTook, hDerives, hShows⟩, hInfix, hBracket⟩ := Parse.found_expr hp hRun
    exact ⟨n, w, e, hTook, hDerives, hn, hShows, hInfix, hBracket⟩
  · intro n w e next rest hDerives hn hLeft hInfix hBracket hParen
    exact Parse.yields_expr hp hDerives hn hLeft hInfix hBracket hParen
  · intro token hToken hk
    obtain ⟨e, hDenotes⟩ := exists_denotes_of_mem_tokenize h hToken hk
    exact ⟨e, fun n => .literal hDenotes⟩

/-- A difference whose right operand is a power of a part of an array. -/
theorem expr_recognises_grammar_difference : ∃ tokens id q n w e,
    tokenize "2 - x[1 .. n] ^ -y; z" "a" = .ok tokens ∧
    Parse.expr .lowest (Parser.start tokens "a" true) = .ok id q ∧
    Took (Parser.start tokens "a" true) w q ∧ w.length = 11 ∧ Derives n .logicalOr w e ∧
    n < maxNesting ∧ Shows q.tree id e ∧ q.kind = .symbol .semicolon := by
  have hRun : (do
      let tokens ← tokenize "2 - x[1 .. n] ^ -y; z" "a"
      match Parse.expr .lowest (Parser.start tokens "a" true) with
      | .ok _ q => pure (q.pos, q.kind)
      | .fail d _ => throw d) = Except.ok (11, .symbol .semicolon) := by
    cbv
  obtain ⟨tokens, hTokens, hRun⟩ := exists_of_bind_eq_ok hRun
  cases hExpr : Parse.expr .lowest (Parser.start tokens "a" true) with
  | fail d q =>
    rw [hExpr] at hRun
    cases hRun
  | ok id q =>
    rw [hExpr] at hRun
    obtain ⟨hPos, hKind⟩ := Prod.mk.inj (Except.ok.inj hRun)
    obtain ⟨n, w, e, hTook, hDerives, hn, hShows, -⟩ :=
      (expr_recognises_grammar hTokens rfl rfl).1 id q hExpr
    have hLength := hTook.pos
    rw [hPos] at hLength
    exact ⟨tokens, id, q, n, w, e, hTokens, hExpr, hTook, by simpa [Parser.start] using hLength.symm,
      hDerives, by simpa [Parser.start] using hn, hShows, hKind⟩

end StageScript

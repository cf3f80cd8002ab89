import StageScript.Parse.Expr
import StageScript.Proofs.Parse.Triple

/-!
# Operators

How an expression goes on at a token and how tightly the token binds stand in two tables.  A token
that binds at all is also one to go on with, since the tables list the same kinds
(`isSome_ofKind?`).  So the loop of operators never comes to a token that it expected to be an
operator, and `extend_succ` tells a round of it by the operator that the token is.
-/

namespace StageScript

/-- How an expression goes on, and how tightly. -/
abbrev Operator := Tail × Power

namespace Operator

/-- The operator that a kind of token is, if it is in both tables. -/
def ofKind? (kind : TokenKind) : Option Operator :=
  (Tail.ofKind? kind).bind fun tail => (Power.ofKind? kind).map fun power => (tail, power)

/-- The two tables list the same kinds. -/
theorem isSome_ofKind? (kind : TokenKind) :
    (Tail.ofKind? kind).isSome = (Power.ofKind? kind).isSome := by
  cases kind with
  | symbol s => cases s <;> rfl
  | _ => rfl

theorem ofKind?_eq_some {kind : TokenKind} {tail : Tail} (h : Tail.ofKind? kind = some tail) :
    ∃ power, Power.ofKind? kind = some power ∧ ofKind? kind = some (tail, power) := by
  have hSome := isSome_ofKind? kind
  rw [h, Option.isSome_some] at hSome
  obtain ⟨power, hPower⟩ := Option.isSome_iff_exists.mp hSome.symm
  exact ⟨power, hPower, by rw [ofKind?, h, hPower]; rfl⟩

theorem ofKind?_eq_none {kind : TokenKind} (h : Tail.ofKind? kind = none) :
    Power.ofKind? kind = none ∧ ofKind? kind = none := by
  have hNone := isSome_ofKind? kind
  rw [h, Option.isSome_none] at hNone
  exact ⟨Option.isSome_eq_false_iff.mp hNone.symm |> Option.isNone_iff_eq_none.mp, by
    rw [ofKind?, h]; rfl⟩

end Operator

def Parser.operator? (p : Parser) (kind : TokenKind) : Option Operator :=
  if p.knowsGrammar then Operator.ofKind? kind else none

/-- A token is an operator and binds as this operator does, or it is none and does not bind. -/
theorem Parser.operator?_cases (p : Parser) :
    (∃ tail, p.operator? p.kind = some (tail, p.power) ∧ p.tail? p.kind = some tail) ∨
      (p.operator? p.kind = none ∧ p.power = .lowest ∧ p.tail? p.kind = none) := by
  rw [operator?, power, power?, tail?]
  split
  · cases hTail : Tail.ofKind? p.kind with
    | none =>
      obtain ⟨hPower, hNone⟩ := Operator.ofKind?_eq_none hTail
      exact .inr ⟨hNone, by rw [hPower]; rfl, rfl⟩
    | some tail =>
      obtain ⟨power, hPower, hSome⟩ := Operator.ofKind?_eq_some hTail
      exact .inl ⟨tail, by rw [hSome, hPower]; rfl, rfl⟩
  · exact .inr ⟨rfl, rfl, rfl⟩

namespace Parse

def extendBy (expr : ExprParser) (power : Power) (left : NodeId) (next : NodeId → Parse NodeId) :
    Option Operator → Parse NodeId
  | none => pure left
  | some (kind, tighter) =>
    if tighter.rank ≤ power.rank then pure left else tail expr left tighter kind >>= next

/-- A round of the loop of operators. -/
theorem extend_succ (expr : ExprParser) (power : Power) (n : Nat) (left : NodeId) :
    extend expr power (n + 1) left =
      (look fun p => p.operator? p.kind) >>= extendBy expr power left (extend expr power n) := by
  funext p
  have hRound : ((look fun p => p.operator? p.kind) >>=
      extendBy expr power left (extend expr power n)) p =
        extendBy expr power left (extend expr power n) (p.operator? p.kind) p := rfl
  rw [hRound]
  rcases p.operator?_cases with ⟨kind, hOperator, hTail⟩ | ⟨hOperator, hPower, -⟩
  · rw [hOperator, extendBy]
    by_cases hRank : p.power.rank ≤ power.rank
    · rw [if_pos hRank]
      exact congrFun (if_pos hRank) p
    · rw [if_neg hRank]
      have hLook : look (fun p => p.tail? p.kind) p = .ok (some kind) p := by rw [look, hTail]
      exact (congrFun (if_neg hRank) p).trans (bind_of_ok hLook _)
  · have hRank : p.power.rank ≤ power.rank := by
      rw [hPower]
      exact Nat.zero_le _
    rw [hOperator]
    exact congrFun (if_pos hRank) p

end Parse

end StageScript

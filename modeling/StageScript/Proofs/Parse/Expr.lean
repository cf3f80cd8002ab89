import StageScript.Proofs.Parse.Making
import StageScript.Proofs.Parse.Operator

/-!
# Expressions keep the ledger

Every rule of expressions makes one node, which holds all the nodes made on the way.  The
rules take the parser of the expressions inside them, so each is judged for an arbitrary
parser of expressions that makes nodes itself; `makes_exprAt` closes the circle by
induction on the levels that are left.
-/

namespace StageScript.Parse

def MakesExpr (expr : ExprParser) : Prop := ∀ power, Makes (expr power)

/-- The step puts a node in the place of `left`. -/
def Replaces (left : NodeId) (step : Parse NodeId) : Prop :=
  ∀ base held stmts loose,
    Triple (At base (held ++ [left]) stmts loose) step fun id => At base (held ++ [id]) stmts loose

/-! ### Lists -/

section Lists

variable {I : List NodeId → Store → Prop} {item : Parse NodeId}

/-- What one item does for the items before it, a list does for all of its items. -/
theorem Triple.commaItems (close : TokenKind)
    (h : ∀ done, Triple (I done) item fun id => I (done ++ [id])) (n : Nat) :
    ∀ done, Triple (I done) (commaItems close item n) fun ids => I (done ++ ids) := by
  induction n with
  | zero =>
    intro done
    exact .pure fun s hs => by simpa using hs
  | succ n ih =>
    intro done
    refine (reads_atKind _).bind fun b => ?_
    refine .ite (fun _ => .pure fun s hs => by simpa using hs) fun _ => ?_
    refine (h done).bind fun id => ?_
    refine (reads_eat _).bind fun b => ?_
    refine .ite (fun _ => ?_) fun _ => .pure fun s hs => hs
    refine (ih _).bind fun ids => .pure fun s hs => ?_
    simpa using hs

theorem Triple.commaList (close : Symbol)
    (h : ∀ done, Triple (I done) item fun id => I (done ++ [id])) (done : List NodeId) :
    Triple (I done) (commaList close item) fun ids => I (done ++ ids) := by
  refine (reads_look _).bind fun n => ?_
  refine (Triple.commaItems _ h n done).bind fun ids => ?_
  exact (reads_expectSymbol _).bind fun _ => .pure fun s hs => hs

end Lists

theorem makesAll_commaList (close : Symbol) {item : Parse NodeId} (h : Makes item) :
    MakesAll (commaList close item) :=
  fun base held stmts loose =>
    Triple.commaList close (fun done => h base done stmts loose) held

theorem makesAll_callArgs {expr : ExprParser} (h : MakesExpr expr) : MakesAll (callArgs expr) := by
  intro base held stmts loose
  exact (reads_expectSymbol _).bind fun _ => makesAll_commaList _ (h _) _ _ _ _

/-! ### Heads -/

theorem literalKind_ok {token : Token} {k : NodeKind} (h : literalKind token = .ok k) :
    k.isDefinition = false ∧ k.entries = [] ∧ k.children = [] := by
  rw [literalKind] at h
  split at h <;> try split at h
  all_goals cases h <;> exact ⟨rfl, rfl, rfl⟩

theorem literalKind_error {token : Token} {c : Cause} (h : literalKind token = .error c) :
    c.isFatal = false := by
  rw [literalKind] at h
  split at h <;> try split at h
  all_goals cases h <;> rfl

theorem makes_literal : Makes literal := by
  intro base held stmts loose
  refine reads_advance.bind fun token => ?_
  cases h : literalKind token with
  | ok k =>
    obtain ⟨hd, he, hc⟩ := literalKind_ok h
    exact push_part _ hd he (by simp [hc])
  | error c => exact fun _ _ => literalKind_error h

theorem makes_name {expr : ExprParser} (h : MakesExpr expr) : Makes (name expr) := by
  intro base held stmts loose
  refine reads_advance.bind fun token => ?_
  refine (reads_atSymbol _).bind fun b => .ite (fun _ => ?_) fun _ => ?_
  · exact (makesAll_callArgs h _ _ _ _).bind fun args =>
    pushFrom_part _ rfl rfl (by simp [NodeKind.children])
  · exact push_part _ rfl rfl (by simp [NodeKind.children])

theorem makes_arrayLiteral {expr : ExprParser} (h : MakesExpr expr) : Makes (arrayLiteral expr) := by
  intro base held stmts loose
  refine reads_advance.bind fun token => ?_
  refine (makesAll_commaList _ (h _) _ _ _ _).bind fun elems => ?_
  exact pushFrom_part _ rfl rfl (by simp [NodeKind.children])

theorem makes_group {expr : ExprParser} (h : MakesExpr expr) : Makes (group expr) := by
  intro base held stmts loose
  refine reads_advance.bind fun _ => (h _ _ _ _ _).bind fun inner => ?_
  exact (reads_expectSymbol _).bind fun _ => .pure fun s hs => hs

theorem makes_absolute {expr : ExprParser} (h : MakesExpr expr) : Makes (absolute expr) := by
  intro base held stmts loose
  refine reads_advance.bind fun token => (h _ _ _ _ _).bind fun operand => ?_
  exact (reads_expectSymbol _).bind fun _ => pushFrom_part _ rfl rfl (by simp [NodeKind.children])

theorem makes_sign {expr : ExprParser} (h : MakesExpr expr) : Makes (sign expr) := by
  intro base held stmts loose
  refine reads_advance.bind fun token => (h _ _ _ _ _).bind fun operand => ?_
  exact pushFrom_part _ rfl rfl (by simp [NodeKind.children])

theorem makes_head {expr : ExprParser} (h : MakesExpr expr) (kind : Head) :
    Makes (head expr kind) := by
  cases kind with
  | literal => exact makes_literal
  | name => exact makes_name h
  | array => exact makes_arrayLiteral h
  | group => exact makes_group h
  | absolute => exact makes_absolute h
  | sign => exact makes_sign h

/-! ### Tails -/

theorem pushBinary_part (op : BinaryOp) (left right : NodeId) {base : Store}
    {held stmts loose : List NodeId} :
    Triple (At base (held ++ [left] ++ [right]) stmts loose) (pushBinary op left right)
      fun id => At base (held ++ [id]) stmts loose :=
  (reads_look _).bind fun span => push_part span rfl rfl (by simp [NodeKind.children])

theorem replaces_binary {expr : ExprParser} (h : MakesExpr expr) (left : NodeId) (power : Power) :
    Replaces left (binary expr left power) := by
  intro base held stmts loose
  refine reads_advance.bind fun token => ?_
  cases BinaryOp.ofKind? token.kind with
  | some op => exact (h _ _ _ _ _).bind fun right => pushBinary_part op left right
  | none => exact fun _ _ => rfl

theorem replaces_exponent {expr : ExprParser} (h : MakesExpr expr) (left : NodeId) :
    Replaces left (exponent expr left) := by
  intro base held stmts loose
  exact reads_advance.bind fun _ => (h _ _ _ _ _).bind fun right => pushBinary_part _ left right

theorem pushAfter_part {k : NodeKind} (left right : NodeId) {base : Store}
    {held all stmts loose : List NodeId} (hd : k.isDefinition = false) (he : k.entries = [])
    (hAll : all = held ++ k.children) :
    Triple (At base all stmts loose) (pushAfter left right k)
      fun id => At base (held ++ [id]) stmts loose :=
  (reads_look _).bind fun _ => pushFrom_part _ hd he hAll

theorem replaces_index {expr : ExprParser} (h : MakesExpr expr) (left : NodeId) :
    Replaces left (index expr left) := by
  intro base held stmts loose
  refine reads_advance.bind fun _ => (h _ _ _ _ _).bind fun start => ?_
  refine (reads_eat _).bind fun b => .ite (fun _ => ?_) fun _ => ?_
  · refine (h _ _ _ _ _).bind fun stop => (reads_look _).bind fun span => ?_
    have hRange : Triple (At base (held ++ [left] ++ [start] ++ [stop]) stmts loose)
        (push (.range start stop) span) fun id => At base (held ++ [left] ++ [id]) stmts loose :=
      push_part span rfl rfl (by simp [NodeKind.children])
    refine hRange.bind fun bounds => ?_
    exact (reads_expectSymbol _).bind fun _ =>
      pushAfter_part left bounds rfl rfl (by simp [NodeKind.children])
  · exact (reads_expectSymbol _).bind fun _ =>
    pushAfter_part left start rfl rfl (by simp [NodeKind.children])

theorem replaces_tail {expr : ExprParser} (h : MakesExpr expr) (left : NodeId) (power : Power)
    (kind : Tail) : Replaces left (tail expr left power kind) := by
  cases kind with
  | binary => exact replaces_binary h left power
  | exponent => exact replaces_exponent h left
  | index => exact replaces_index h left

theorem replaces_extend {expr : ExprParser} (h : MakesExpr expr) (power : Power) (n : Nat) :
    ∀ left, Replaces left (extend expr power n left) := by
  induction n with
  | zero =>
    intro left base held stmts loose
    exact .pure fun s hs => hs
  | succ n ih =>
    intro left base held stmts loose
    rw [extend_succ]
    refine (reads_look _).bind fun found => ?_
    cases found with
    | none => exact .pure fun s hs => hs
    | some tighter =>
      refine .ite (fun _ => .pure fun s hs => hs) fun _ => ?_
      exact (replaces_tail h left _ _ _ _ _ _).bind fun id => ih id _ _ _ _

/-! ### Whole expressions -/

theorem makes_exprWith {expr : ExprParser} (h : MakesExpr expr) : MakesExpr (exprWith expr) := by
  intro power base held stmts loose
  refine (reads_look _).bind fun found => ?_
  cases found with
  | none => exact fun _ _ => rfl
  | some kind =>
    refine (makes_head h kind _ _ _ _).bind fun left => (reads_look _).bind fun n => ?_
    exact replaces_extend h power n left _ _ _ _

theorem makes_exprAt (levels : Nat) : MakesExpr (exprAt levels) := by
  induction levels with
  | zero => exact fun _ _ _ _ _ _ _ => rfl
  | succ levels ih => exact fun power _ _ _ _ => (makes_exprWith ih power _ _ _ _).nested

end StageScript.Parse

import StageScript.Proofs.Parse.Unbounded
import StageScript.Proofs.Parse.Visits

/-!
# Calls of the parser

A parser can be asked at any place for a statement, an expression or a block, or for what one of
the rules inside them parses, and whatever comes of it, it can be asked again.  `call_balances`
says what can be relied on between calls: a call ends by itself, it only reads on and adds, and
it is never deeper than the limit.  If it ends well, it has closed all that it opened; if it
fails, the blocks that are still open account for the levels that are.
-/

set_option synthInstance.maxSize 4000

namespace StageScript.Parse

variable {α : Type}

/-! ### Calls and loops -/

/-- What a parser can be asked for at its current place, with what it gives. -/
inductive Call : Type → Type
  | stmt : Call (Option NodeId)
  | expr (power : Power) : Call NodeId
  | block (decls : List NodeId) : Call NodeId
  -- The rules inside them.
  | form (kind : Form) : Call (Option NodeId)
  | head (kind : Head) : Call NodeId
  | tail (left : NodeId) (power : Power) (kind : Tail) : Call NodeId
  | condition : Call NodeId
  | callArgs : Call (List NodeId)
  | params : Call (List NodeId)

namespace Call

def run : Call α → Parse α
  | stmt => Parse.stmt
  | expr power => Parse.expr power
  | block decls => Parse.block decls
  | form kind => here fun inner => Parse.form inner kind
  | head kind => here fun inner => Parse.head inner.expr kind
  | tail left power kind => here fun inner => Parse.tail inner.expr left power kind
  | condition => here Parse.condition
  | callArgs => here fun inner => Parse.callArgs inner.expr
  | params => Parse.params

/-- The call in terms of the calls inside it. -/
def rule (inner : Inner) : Call α → Parse α
  | stmt => stmtWith inner
  | expr power => nested (exprWith inner.expr power)
  | block decls => blockWith inner decls
  | form kind => Parse.form inner kind
  | head kind => Parse.head inner.expr kind
  | tail left power kind => Parse.tail inner.expr left power kind
  | condition => Parse.condition inner
  | callArgs => Parse.callArgs inner.expr
  | params => Parse.params

def isWhole : Call α → Bool
  | stmt => true
  | expr _ => true
  | block _ => true
  | _ => false

/-- The calls inside a call are calls at the place that it has come to. -/
theorem run_eq_rule (call : Call α) : call.run = call.rule ⟨Parse.expr, Parse.block⟩ := by
  cases call with
  | stmt => exact here_eq stmtWith
  | expr power => exact expr_eq power
  | block decls => exact block_eq decls
  | form kind => exact here_eq fun inner => Parse.form inner kind
  | head kind => exact here_eq fun inner => Parse.head inner.expr kind
  | tail left power kind => exact here_eq fun inner => Parse.tail inner.expr left power kind
  | condition => exact here_eq Parse.condition
  | callArgs => exact here_eq fun inner => Parse.callArgs inner.expr
  | params => rfl

end Call

inductive Loop : Type → Type
  | items (close : Symbol) : Loop (List NodeId)
  | params : Loop (List NodeId)
  | extend (power : Power) (left : NodeId) : Loop NodeId
  | indices : Loop (List NodeId)
  | elseBranches : Loop (List NodeId × Option NodeId)
  | caseBranches : Loop (List NodeId)
  | stmts (stop : Parser → Bool) : Loop (List NodeId)

namespace Loop

def run (inner : Inner) : Loop α → Nat → Parse α
  | items close => commaItems (.symbol close) (inner.expr .lowest)
  | params => commaItems (.symbol .closeParen) param
  | extend power left => fun n => Parse.extend inner.expr power n left
  | indices => Parse.indices inner.expr
  | elseBranches => Parse.elseBranches inner
  | caseBranches => Parse.caseBranches inner
  | stmts stop => Parse.stmts inner stop

theorem param_ne_comma {p q : Parser} {id : NodeId} (h : param p = .ok id q) :
    p.kind ≠ .symbol .comma := by
  intro hComma
  obtain ⟨found, r, hEat, h⟩ := bind_eq_ok h
  rw [eat, if_neg (by simp [hComma])] at hEat
  cases hEat
  obtain ⟨token, r, hName, -⟩ := bind_eq_ok h
  obtain ⟨d, r', hLook, hName⟩ := bind_eq_ok hName
  cases hLook
  have hKind := (expectOr_eq_ok hName).1
  rw [hComma] at hKind
  cases hKind

theorem settles (loop : Loop α) (levels : Nat) :
    Settles (loop.run ⟨exprAt levels, blockAt levels⟩) := by
  cases loop with
  | items close => exact settles_commaItems _ _ fun hPast h => exprAt_past hPast h _
  | params => exact settles_commaItems _ _ fun _ => param_ne_comma
  | extend power left => exact settles_extend levels power left
  | indices => exact settles_indices levels
  | elseBranches => exact settles_elseBranches levels
  | caseBranches => exact settles_caseBranches levels
  | stmts stop => exact settles_stmts levels stop

end Loop

/-! ### What calls keep -/

instance runs_here (rule : Inner → Parse α)
    [h : ∀ levels, Runs Onward (rule ⟨exprAt levels, blockAt levels⟩)] :
    Runs Onward (here rule) where
  related hRun := (h _).related hRun

instance takes_blockAt (levels : Nat) (decls : List NodeId) : Takes (blockAt levels decls) where
  pos_lt {p q id} h := by
    cases levels with
    | zero =>
      obtain ⟨u, r, -, h⟩ := bind_eq_ok h
      cases h
    | succ levels =>
      obtain ⟨s, r, ids, -, -, -, -, -, hInside, hPush⟩ := blockWith_eq_ok h
      have hPushed : Onward (r.behindBlock p.table p.outer) q := Runs.related hPush
      have hOpen : p.pos < p.inBlock.pos := Nat.lt_succ_self _
      have hClose : r.pos < (r.behindBlock p.table p.outer).pos := Nat.lt_succ_self _
      exact ((hOpen.trans_le hInside.pos_le).trans hClose).trans_le hPushed.pos_le

namespace Call

instance runs_run (call : Call α) : Runs Onward call.run := by
  cases call with
  | stmt => exact runs_here stmtWith
  | expr power => exact runs_here fun inner => inner.expr power
  | block decls => exact runs_here fun inner => inner.block decls
  | form kind => exact runs_here fun inner => Parse.form inner kind
  | head kind => exact runs_here fun inner => Parse.head inner.expr kind
  | tail left power kind => exact runs_here fun inner => Parse.tail inner.expr left power kind
  | condition => exact runs_here Parse.condition
  | callArgs => exact runs_here fun inner => Parse.callArgs inner.expr
  | params => exact runs_params

instance balanced_run (call : Call α) : Balanced call.run := by
  cases call with
  | stmt => exact balanced_here stmtWith
  | expr power => exact balanced_here fun inner => inner.expr power
  | block decls => exact balanced_here fun inner => inner.block decls
  | form kind => exact balanced_here fun inner => Parse.form inner kind
  | head kind => exact balanced_here fun inner => Parse.head inner.expr kind
  | tail left power kind => exact balanced_here fun inner => Parse.tail inner.expr left power kind
  | condition => exact balanced_here Parse.condition
  | callArgs => exact balanced_here fun inner => Parse.callArgs inner.expr
  | params => exact balanced_params

theorem pos_lt (call : Call α) (hWhole : call.isWhole) {p q : Parser} {a : α}
    (h : call.run p = .ok a q) : p.pos < q.pos := by
  cases call with
  | stmt => exact (takes_stmtWith (innerOf p)).pos_lt h
  | expr power => exact (takes_exprAt _ power).pos_lt h
  | block decls => exact (takes_blockAt _ decls).pos_lt h
  | _ => cases hWhole

end Call

theorem Strays.depth {p q : Parser} (h : Strays p q) :
    (q.nesting : ℤ) - p.nesting = q.scopeDepth - p.scopeDepth ∧
      0 ≤ (q.scopeDepth : ℤ) - p.scopeDepth := by
  obtain ⟨opened, table, hTables, -, hNesting⟩ := h
  have hLength := congrArg List.length hTables
  simp only [List.length_cons, List.length_append] at hLength
  simp only [Parser.scopeDepth]
  omega

/-- Calls end, read on and add, and stay within the limit of nesting at every point.  They close
all that they open if they end well, and leave as many levels open as blocks if they fail. -/
theorem call_balances (call : Call α) (p : Parser) (hNesting : p.nesting ≤ maxNesting) :
    -- It breaks down into finitely many steps, and no bound on levels or rounds cuts it off.
    ((∃ visited, Visits call.run p visited) ∧
      call.run p = call.rule ⟨expr, block⟩ p ∧
      ∀ (β : Type) (loop : Loop β) (levels : Nat),
        Settles (loop.run ⟨exprAt levels, blockAt levels⟩)) ∧
    -- At every point, the tree and the place in the tokens have only grown.
    (∀ visited, Visits call.run p visited →
      visited.getLast? = some (call.run p).after ∧
        (p :: visited).Pairwise (fun q r => q.tree.Extends r.tree ∧ q.pos ≤ r.pos) ∧
        ∀ q ∈ visited, q.nesting ≤ maxNesting) ∧
    (∀ a q, call.run p = .ok a q →
      (call.isWhole → p.pos < q.pos) ∧ q.nesting = p.nesting ∧ q.outer = p.outer ∧
        p.table.entries <+: q.table.entries) ∧
    (∀ d q, call.run p = .fail d q →
      (∃ opened table, q.table :: q.outer = opened ++ table :: p.outer ∧
          p.table.entries <+: table.entries) ∧
        (q.nesting : ℤ) - p.nesting = q.scopeDepth - p.scopeDepth ∧
        0 ≤ (q.scopeDepth : ℤ) - p.scopeDepth) := by
  refine ⟨⟨Balanced.visits p, congrFun call.run_eq_rule p, fun _ loop => loop.settles⟩,
    fun visited hVisits => ?_, fun a q hOk => ?_, fun d q hFail => ?_⟩
  · obtain ⟨hFirst, -⟩ := List.pairwise_cons.mp hVisits.pairwise
    exact ⟨hVisits.chain.2, hVisits.pairwise.imp fun h => ⟨h.tree, h.pos_le⟩,
      fun q hq => (hFirst q hq).limited hNesting⟩
  · have hOnward : Onward p q := Runs.related hOk
    exact ⟨fun hWhole => call.pos_lt hWhole hOk, hOnward.nesting, hOnward.outer, hOnward.table⟩
  · have hStrays : Strays p q := Balanced.strays hFail
    have hDepth := hStrays.depth
    obtain ⟨opened, table, hTables, hTable, -⟩ := hStrays
    exact ⟨⟨opened, table, hTables, hTable⟩, hDepth⟩

/-- Two blocks are open when a statement is missing, at the limit of nesting. -/
theorem call_balances_unclosed : ∃ (p q : Parser) (d : Diagnostic),
    p.nesting = 254 ∧ p.nesting ≤ maxNesting ∧ (Call.block []).run p = .fail d q ∧
    q.nesting = maxNesting ∧ (q.scopeDepth : ℤ) - p.scopeDepth = 2 ∧
    ∀ visited, Visits (Call.block []).run p visited → ∀ r ∈ visited, r.nesting ≤ maxNesting := by
  let token (kind : TokenKind) : Token := ⟨kind, "", ⟨⟨0, "a"⟩, ⟨0, "a"⟩⟩⟩
  let p : Parser := { Parser.start [token (.symbol .openCurly), token (.keyword .localWord),
    token (.symbol .openCurly), token .number] "a" true with nesting := 254 }
  have hAfter : ((Call.block []).run p).after.nesting = 256 := by
    cbv
  obtain ⟨-, hPoints, hOk, hFail⟩ := call_balances (.block []) p (by decide)
  cases hRun : (Call.block []).run p with
  | ok a q =>
    rw [hRun] at hAfter
    have hSame : q.nesting = 254 := (hOk a q hRun).2.1
    exact absurd (hSame.symm.trans hAfter) (by decide)
  | fail d q =>
    rw [hRun] at hAfter
    have hLevels : q.nesting = 256 := hAfter
    obtain ⟨-, hDepth, -⟩ := hFail d q hRun
    rw [hLevels] at hDepth
    exact ⟨p, q, d, rfl, by decide, hRun, hLevels, hDepth.symm, fun visited hVisits =>
      (hPoints visited hVisits).2.2⟩

end StageScript.Parse

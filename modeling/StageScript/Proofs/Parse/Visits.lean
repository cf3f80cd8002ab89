import StageScript.Proofs.Parse.Runs

/-!
# What a rule goes through

Rules are put together from elementary steps, each of which reads a token, adds a node, declares a
name, or opens or closes a level or a scope (`Elementary`).  `Visits step p visited` takes a run
apart: `visited` are the parsers behind its elementary steps, in their order.  No elementary step
turns back, changes a node or goes below the limit of levels, and so no run does at any point
(`Visits.chain`).

A rule that ends well has closed what it opened (`Onward`).  A rule that fails leaves its blocks
open: each of them has a table and a level (`Strays`), while the levels of expressions are closed
in any case.  Rules that keep to this are `Balanced`.
-/

set_option synthInstance.maxSize 4000

namespace StageScript

def Reply.after {α : Type} : Reply α → Parser
  | .ok _ p => p
  | .fail _ p => p

namespace Parse

variable {α β : Type}

/-! ### Runs taken apart -/

/-- The steps that rules are put together from. -/
class inductive Elementary : {α : Type} → Parse α → Prop
  | pure {α : Type} (a : α) : Elementary (pure a : Parse α)
  | fail {α : Type} (d : Diagnostic) : Elementary (fail d : Parse α)
  | unexpected {α : Type} (reason : String) : Elementary (unexpected reason : Parse α)
  | tooDeep {α : Type} : Elementary (tooDeep : Parse α)
  | look {α : Type} (f : Parser → α) : Elementary (look f)
  | lookup {α : Type} (f : Tree → Except Diagnostic α) : Elementary (lookup f)
  | advance : Elementary advance
  | expectOr (kind : TokenKind) (d : Diagnostic) : Elementary (expectOr kind d)
  | eat (kind : TokenKind) : Elementary (eat kind)
  | push (kind : NodeKind) (span : Span) : Elementary (push kind span)
  | bindName (name : String) (id : NodeId) (position : Position) :
    Elementary (bindName name id position)
  | enter : Elementary enter
  | leave : Elementary leave
  | pushScope : Elementary pushScope
  | popScope : Elementary popScope

attribute [instance] Elementary.pure Elementary.fail Elementary.unexpected Elementary.tooDeep
  Elementary.look Elementary.lookup Elementary.advance Elementary.expectOr Elementary.eat
  Elementary.push Elementary.bindName Elementary.enter Elementary.leave Elementary.pushScope
  Elementary.popScope

/-- From `p`, the elementary steps of a rule lead to the parsers `visited`, one after another. -/
inductive Visits : {α : Type} → Parse α → Parser → List Parser → Prop
  | one {α : Type} {step : Parse α} (h : Elementary step) (p : Parser) :
    Visits step p [(step p).after]
  | next {α β : Type} {step : Parse α} {next : α → Parse β} {p q : Parser} {a : α}
      {front back : List Parser} :
    Visits step p front → step p = .ok a q → Visits (next a) q back →
      Visits (step >>= next) p (front ++ back)
  | stop {α β : Type} {step : Parse α} {next : α → Parse β} {p q : Parser} {d : Diagnostic}
      {front : List Parser} :
    Visits step p front → step p = .fail d q → Visits (step >>= next) p front
  -- A level that was entered is left again, whatever came of it.
  | inside {α : Type} {step : Parse α} {p q : Parser} {visited : List Parser} :
    enter p = .ok () q → Visits step q visited →
      Visits (nested step) p (q :: visited ++ [(leave (step q).after).after])
  | full {α : Type} {step : Parse α} {p q : Parser} {d : Diagnostic} :
    enter p = .fail d q → Visits (nested step) p [q]

structure Later (p q : Parser) : Prop where
  tree : p.tree.Extends q.tree
  pos_le : p.pos ≤ q.pos
  limited : p.nesting ≤ maxNesting → q.nesting ≤ maxNesting

theorem Later.refl (p : Parser) : Later p p := ⟨.refl _, Nat.le_refl _, id⟩

theorem Later.trans {p q r : Parser} (h : Later p q) (g : Later q r) : Later p r :=
  ⟨h.tree.trans g.tree, h.pos_le.trans g.pos_le, g.limited ∘ h.limited⟩

theorem Elementary.later {step : Parse α} (h : Elementary step) (p : Parser) :
    Later p (step p).after := by
  have hAdvanced : Later p p.advanced := { Later.refl p with pos_le := Nat.le_succ _ }
  cases h with
  | advance => exact hAdvanced
  | expectOr kind d =>
    rw [Parse.expectOr]
    split
    · exact hAdvanced
    · exact .refl p
  | eat kind =>
    rw [Parse.eat]
    split
    · exact hAdvanced
    · exact .refl p
  | push kind span => exact { Later.refl p with tree := .push _ _ }
  | lookup f =>
    rw [Parse.lookup]
    split <;> exact .refl p
  | bindName name id position =>
    rw [Parse.bindName]
    split
    · exact { Later.refl p with }
    · exact .refl p
  | enter =>
    rw [Parse.enter]
    split
    · exact .refl p
    · exact { Later.refl p with limited := fun _ => Nat.lt_of_not_le ‹_› }
  | leave => exact { Later.refl p with limited := (Nat.sub_le _ _).trans }
  | pushScope => exact { Later.refl p with }
  | popScope =>
    rw [Parse.popScope]
    split <;> exact { Later.refl p with }
  | _ => exact .refl p

/-- An elementary step that fails does nothing. -/
theorem Elementary.eq_of_fail {step : Parse α} (h : Elementary step) {p q : Parser}
    {d : Diagnostic} (hFail : step p = .fail d q) : q = p := by
  cases h with
  | expectOr kind e =>
    rw [Parse.expectOr] at hFail
    split at hFail <;> cases hFail
    rfl
  | eat kind =>
    rw [Parse.eat] at hFail
    split at hFail <;> cases hFail
  | lookup f =>
    rw [Parse.lookup] at hFail
    split at hFail <;> cases hFail
    rfl
  | bindName name id position =>
    rw [Parse.bindName] at hFail
    split at hFail <;> cases hFail
    rfl
  | enter =>
    rw [Parse.enter] at hFail
    split at hFail <;> cases hFail
    rfl
  | popScope =>
    rw [Parse.popScope] at hFail
    split at hFail <;> cases hFail
  | fail e => cases hFail; rfl
  | unexpected reason => cases hFail; rfl
  | tooDeep => cases hFail; rfl
  | _ => cases hFail

theorem after_nested {step : Parse α} {p q : Parser} (h : enter p = .ok () q) :
    (nested step p).after = (leave (step q).after).after := by
  have hRun : nested step p = _ := bind_of_ok h _
  rw [hRun]
  cases step q <;> rfl

/-- A run only goes forward, and its last parser is the one that it leaves behind. -/
theorem Visits.chain {step : Parse α} {p : Parser} {visited : List Parser}
    (h : Visits step p visited) :
    (p :: visited).IsChain Later ∧ visited.getLast? = some (step p).after := by
  induction h with
  | one h p => exact ⟨.cons_cons (h.later p) (.singleton _), rfl⟩
  | @next α β step next p q a front back _ hOk _ ih ihNext =>
    have hLast : front.getLast? = some q := by rw [ih.2, hOk]; rfl
    refine ⟨?_, ?_⟩
    · rw [← List.cons_append, List.isChain_append]
      obtain ⟨hBack, hHead⟩ := List.isChain_cons.mp ihNext.1
      refine ⟨ih.1, hHead, fun x hx y hy => ?_⟩
      rw [List.getLast?_cons, hLast] at hx
      cases hx
      exact hBack y hy
    · rw [List.getLast?_append, ihNext.2, bind_of_ok hOk]
      rfl
  | stop _ hFail ih => exact ⟨ih.1, by rw [ih.2, bind_of_fail hFail, hFail]; rfl⟩
  | @inside α step p q visited hEnter _ ih =>
    have hFirst : Later p q := by
      have hLater := Elementary.enter.later p
      rwa [hEnter] at hLater
    refine ⟨?_, ?_⟩
    · rw [List.cons_append, List.isChain_cons_cons, ← List.cons_append, List.isChain_append]
      refine ⟨hFirst, ih.1, .singleton _, fun x hx y hy => ?_⟩
      rw [List.getLast?_cons, ih.2] at hx
      cases hx
      cases hy
      exact Elementary.leave.later _
    · rw [List.getLast?_append, after_nested hEnter]
      rfl
  | @full α step p q d hEnter =>
    have hLater := Elementary.enter.later p
    rw [hEnter] at hLater
    have hRun : nested step p = .fail d q := bind_of_fail hEnter _
    exact ⟨.cons_cons hLater (.singleton _), by rw [hRun]; rfl⟩

instance isTrans_later : IsTrans Parser Later := ⟨fun _ _ _ => Later.trans⟩

theorem Visits.pairwise {step : Parse α} {p : Parser} {visited : List Parser}
    (h : Visits step p visited) : (p :: visited).Pairwise Later :=
  List.isChain_iff_pairwise.mp h.chain.1

/-! ### Rules that fail -/

/-- From `p`, a rule that fails leaves the parser at `q`: the blocks that are still open have a
table and a level each, and around them some names may have been declared. -/
def Strays (p q : Parser) : Prop :=
  ∃ opened table, q.table :: q.outer = opened ++ table :: p.outer ∧
    p.table.entries <+: table.entries ∧ q.nesting = p.nesting + opened.length

theorem Strays.of_onward {p q : Parser} (h : Onward p q) : Strays p q :=
  ⟨[], q.table, by rw [h.outer, List.nil_append], h.table, h.nesting⟩

theorem Strays.after {p q r : Parser} (h : Onward p q) (g : Strays q r) : Strays p r := by
  obtain ⟨opened, table, hTables, hTable, hNesting⟩ := g
  exact ⟨opened, table, by rw [hTables, h.outer], h.table.trans hTable, by rw [hNesting, h.nesting]⟩

/-- What is left open inside a block is left open with the block. -/
theorem Strays.block {p q : Parser} (h : Strays p.inBlock q) : Strays p q := by
  obtain ⟨opened, table, hTables, -, hNesting⟩ := h
  refine ⟨opened ++ [table], p.table, ?_, List.prefix_refl _, ?_⟩
  · rw [hTables, List.append_assoc]
    rfl
  · have hLevel : p.inBlock.nesting = p.nesting + 1 := rfl
    rw [hNesting, hLevel, List.length_append, List.length_singleton]
    omega

theorem Strays.nested {p q : Parser} (h : Strays { p with nesting := p.nesting + 1 } q) :
    Strays p { q with nesting := q.nesting - 1 } := by
  obtain ⟨opened, table, hTables, hTable, hNesting⟩ := h
  refine ⟨opened, table, hTables, hTable, ?_⟩
  simp only [hNesting]
  omega

/-- A rule whose runs can be taken apart, and that leaves nothing but blocks open if it fails. -/
class Balanced (step : Parse α) : Prop where
  visits : ∀ p, ∃ visited, Visits step p visited
  strays : ∀ {p q : Parser} {d : Diagnostic}, step p = .fail d q → Strays p q

theorem bind_eq_fail {step : Parse α} {next : α → Parse β} {p r : Parser} {d : Diagnostic}
    (h : (step >>= next) p = .fail d r) :
    step p = .fail d r ∨ ∃ a q, step p = .ok a q ∧ next a q = .fail d r := by
  cases hs : step p with
  | ok a q => exact Or.inr ⟨a, q, rfl, by rwa [bind_of_ok hs] at h⟩
  | fail e q =>
    rw [bind_of_fail hs] at h
    cases h
    exact Or.inl rfl

theorem nested_eq_fail {step : Parse α} {p r : Parser} {d : Diagnostic}
    (h : nested step p = .fail d r) :
    enter p = .fail d r ∨ ∃ q, step { p with nesting := p.nesting + 1 } = .fail d q ∧
      r = { q with nesting := q.nesting - 1 } := by
  rcases bind_eq_fail h with h | ⟨u, p', hEnter, h⟩
  · exact Or.inl h
  · obtain ⟨-, rfl⟩ := enter_eq_ok hEnter
    split at h
    · cases h
    · cases h
      exact Or.inr ⟨_, ‹_›, rfl⟩

theorem exists_visits_bind {step : Parse α} {next : α → Parse β} {p : Parser}
    (h : ∃ visited, Visits step p visited)
    (hn : ∀ a q, step p = .ok a q → ∃ visited, Visits (next a) q visited) :
    ∃ visited, Visits (step >>= next) p visited := by
  obtain ⟨front, hFront⟩ := h
  cases hs : step p with
  | ok a q =>
    obtain ⟨back, hBack⟩ := hn a q hs
    exact ⟨_, hFront.next hs hBack⟩
  | fail d q => exact ⟨_, hFront.stop hs⟩

instance (priority := low) balanced_of_elementary (step : Parse α) [h : Elementary step] :
    Balanced step where
  visits p := ⟨_, .one h p⟩
  strays hFail := by
    obtain rfl := h.eq_of_fail hFail
    exact .of_onward (.refl _)

theorem Balanced.bind {step : Parse α} {next : α → Parse β} (hs : Balanced step)
    (hRuns : Runs Onward step) (hn : ∀ a, Balanced (next a)) : Balanced (step >>= next) where
  visits p := exists_visits_bind (hs.visits p) fun a q _ => (hn a).visits q
  strays hFail := by
    rcases bind_eq_fail hFail with h | ⟨a, q, hOk, h⟩
    · exact hs.strays h
    · exact .after (hRuns.related hOk) ((hn a).strays h)

instance balanced_bind (step : Parse α) (next : α → Parse β) [hs : Balanced step]
    [hRuns : Runs Onward step] [hn : ∀ a, Balanced (next a)] : Balanced (step >>= next) :=
  hs.bind hRuns hn

instance balanced_map (f : α → β) (step : Parse α) [Balanced step] [Runs Onward step] :
    Balanced (f <$> step) :=
  balanced_bind step fun a => pure (f a)

instance balanced_ite {c : Prop} [Decidable c] (step other : Parse α) [Balanced step]
    [Balanced other] : Balanced (if c then step else other) := by
  split <;> infer_instance

instance balanced_nested (step : Parse α) [hs : Balanced step] : Balanced (nested step) where
  visits p := by
    cases hEnter : enter p with
    | ok u q =>
      obtain ⟨visited, hVisits⟩ := hs.visits q
      exact ⟨_, .inside hEnter hVisits⟩
    | fail d q => exact ⟨_, .full hEnter⟩
  strays hFail := by
    rcases nested_eq_fail hFail with h | ⟨q, h, rfl⟩
    · exact (balanced_of_elementary enter).strays h
    · exact (hs.strays h).nested

/-- A step for each of some items. -/
theorem balanced_forM {ι : Type} {step : ι → Parse Unit} (h : ∀ i, Balanced (step i))
    (hRuns : ∀ i, Runs Onward (step i)) (is : List ι) : Balanced (is.forM step) := by
  induction is with
  | nil => exact balanced_of_elementary (pure ())
  | cons i is ih => exact balanced_bind (step i) fun _ => is.forM step

/-! ### Tokens and declarations -/

instance balanced_atKind (kind : TokenKind) : Balanced (atKind kind) :=
  balanced_of_elementary (look _)

instance balanced_atSymbol (s : Symbol) : Balanced (atSymbol s) := balanced_of_elementary (look _)

instance balanced_expect (kind : TokenKind) : Balanced (expect kind) := by
  unfold expect
  infer_instance

instance balanced_expectSymbol (s : Symbol) : Balanced (expectSymbol s) := by
  unfold expectSymbol
  infer_instance

instance balanced_expectName (context : String) : Balanced (expectName context) := by
  unfold expectName
  infer_instance

instance balanced_pushFrom (start : Position) (kind : NodeKind) :
    Balanced (pushFrom start kind) := by
  unfold pushFrom
  infer_instance

instance balanced_declare (d : Definition) (span : Span) : Balanced (declare d span) := by
  unfold declare
  infer_instance

instance balanced_declareExisting (id : NodeId) : Balanced (declareExisting id) := by
  unfold declareExisting
  infer_instance

theorem balanced_commaItems (close : TokenKind) (item : Parse NodeId) [Balanced item]
    [Runs Onward item] (n : Nat) : Balanced (commaItems close item n) := by
  induction n with
  | zero => exact balanced_of_elementary (pure [])
  | succ n ih =>
    have := runs_commaItems (R := Onward) close item n
    unfold commaItems
    infer_instance

instance balanced_commaList (close : Symbol) (item : Parse NodeId) [Balanced item]
    [Runs Onward item] : Balanced (commaList close item) := by
  have hItems : ∀ n, Balanced (commaItems (.symbol close) item n) := balanced_commaItems _ item
  have hRuns : ∀ n, Runs Onward (commaItems (.symbol close) item n) := runs_commaItems _ item
  unfold commaList
  infer_instance

/-! ### Expressions -/

section Expressions

variable (expr : ExprParser) [∀ power, Balanced (expr power)] [∀ power, Runs Onward (expr power)]

instance balanced_callArgs : Balanced (callArgs expr) := by
  unfold callArgs
  infer_instance

instance balanced_literal : Balanced literal := by
  unfold literal
  refine .bind inferInstance inferInstance fun token => ?_
  split <;> infer_instance

instance balanced_head (kind : Head) : Balanced (head expr kind) := by
  cases kind <;> unfold head
  case literal => infer_instance
  case name => unfold name; infer_instance
  case array => unfold arrayLiteral; infer_instance
  case group => unfold group; infer_instance
  case absolute => unfold absolute; infer_instance
  case sign => unfold sign; infer_instance

instance balanced_pushBinary (op : BinaryOp) (left right : NodeId) :
    Balanced (pushBinary op left right) := by
  unfold pushBinary
  infer_instance

instance balanced_pushAfter (left right : NodeId) (kind : NodeKind) :
    Balanced (pushAfter left right kind) := by
  unfold pushAfter
  infer_instance

instance balanced_tail (left : NodeId) (power : Power) (kind : Tail) :
    Balanced (tail expr left power kind) := by
  cases kind <;> unfold tail
  case binary =>
    unfold binary
    refine .bind inferInstance inferInstance fun token => ?_
    split <;> infer_instance
  case exponent => unfold exponent; infer_instance
  case index => unfold index; infer_instance

instance balanced_extend (power : Power) (n : Nat) (left : NodeId) :
    Balanced (extend expr power n left) := by
  induction n generalizing left with
  | zero => exact balanced_of_elementary (pure left)
  | succ n ih =>
    rw [extend_succ]
    refine .bind inferInstance inferInstance fun found => ?_
    unfold extendBy
    split <;> infer_instance

instance balanced_exprWith (power : Power) : Balanced (exprWith expr power) := by
  unfold exprWith
  refine .bind inferInstance inferInstance fun found => ?_
  split <;> infer_instance

end Expressions

instance balanced_exprAt (levels : Nat) (power : Power) : Balanced (exprAt levels power) := by
  induction levels generalizing power with
  | zero => exact balanced_of_elementary tooDeep
  | succ levels ih => exact balanced_nested _

/-! ### Statements -/

section Statements

variable (inner : Inner) [∀ power, Balanced (inner.expr power)]
  [∀ power, Runs Onward (inner.expr power)]

instance balanced_condition : Balanced (condition inner) := by
  unfold condition
  infer_instance

instance balanced_param : Balanced param := by
  unfold param
  infer_instance

instance balanced_params : Balanced params := by
  unfold params
  infer_instance

instance balanced_indices (expr : ExprParser) [∀ power, Balanced (expr power)]
    [∀ power, Runs Onward (expr power)] (n : Nat) : Balanced (indices expr n) := by
  induction n with
  | zero => exact balanced_of_elementary (pure [])
  | succ n ih =>
    unfold indices
    infer_instance

instance balanced_update (expr : ExprParser) [∀ power, Balanced (expr power)]
    [∀ power, Runs Onward (expr power)] (lhs : NodeId) (operator : Token) :
    Balanced (update expr lhs operator) := by
  unfold update
  split
  · infer_instance
  · infer_instance
  · split <;> infer_instance

variable [∀ decls, Balanced (inner.block decls)] [∀ decls, Runs Onward (inner.block decls)]

instance balanced_elseBranches (n : Nat) : Balanced (elseBranches inner n) := by
  induction n with
  | zero => exact balanced_of_elementary (pure _)
  | succ n ih =>
    unfold elseBranches
    infer_instance

instance balanced_caseBranches (n : Nat) : Balanced (caseBranches inner n) := by
  induction n with
  | zero => exact balanced_of_elementary (pure _)
  | succ n ih =>
    unfold caseBranches
    dsimp only
    infer_instance

instance balanced_ascent : Balanced (ascent inner) := by
  unfold ascent
  infer_instance

instance balanced_form (kind : Form) : Balanced (form inner kind) := by
  cases kind <;> unfold form
  case varDecl => unfold varDecl; infer_instance
  case callableDef => unfold callableDef; infer_instance
  case subDef => unfold subDef; infer_instance
  case entryRoutine => unfold entryRoutine; infer_instance
  case header => unfold header; infer_instance
  case ifElse => unfold ifElse; infer_instance
  case loop => unfold loop; infer_instance
  case times => unfold times; infer_instance
  case whileLoop => unfold whileLoop; infer_instance
  case ascent => infer_instance
  case alternative => unfold alternative; infer_instance
  case localBlock => unfold localBlock; infer_instance
  case returnStmt => unfold returnStmt; infer_instance
  case yieldStmt => unfold wordStmt; infer_instance
  case breakStmt => unfold wordStmt; infer_instance
  case assignOrCall => unfold assignOrCall; infer_instance
  case nop => unfold nop; infer_instance

instance balanced_stmtWith : Balanced (stmtWith inner) := by
  unfold stmtWith
  refine .bind inferInstance inferInstance fun found => ?_
  split <;> infer_instance

instance balanced_stmts (stop : Parser → Bool) (n : Nat) : Balanced (stmts inner stop n) := by
  induction n with
  | zero => exact balanced_of_elementary (pure [])
  | succ n ih =>
    unfold stmts
    infer_instance

end Statements

/-! ### Blocks -/

instance balanced_blockWith (inner : Inner) (decls : List NodeId)
    [∀ power, Balanced (inner.expr power)] [∀ power, Runs Onward (inner.expr power)]
    [∀ decls, Balanced (inner.block decls)] [∀ decls, Runs Onward (inner.block decls)] :
    Balanced (blockWith inner decls) := by
  have hDecls : Balanced (decls.forM fun id => do let _ ← declareExisting id) :=
    balanced_forM (fun _ => inferInstance) (fun _ => inferInstance) decls
  refine ⟨fun p => ?_, fun {p q d} h => ?_⟩
  · -- The scope of a block is opened and closed by steps that are not balanced by themselves.
    refine exists_visits_bind (Balanced.visits p) fun _ p _ => ?_
    refine exists_visits_bind (Balanced.visits p) fun _ p _ => ?_
    refine exists_visits_bind (Balanced.visits p) fun _ p _ => ?_
    refine exists_visits_bind (hDecls.visits p) fun _ p _ => ?_
    refine exists_visits_bind (Balanced.visits p) fun _ p _ => ?_
    refine exists_visits_bind (Balanced.visits p) fun _ p _ => ?_
    refine exists_visits_bind (Balanced.visits p) fun _ p _ => ?_
    refine exists_visits_bind (Balanced.visits p) fun _ p _ => ?_
    exact exists_visits_bind (Balanced.visits p) fun _ p _ => Balanced.visits p
  · rcases bind_eq_fail h with h | ⟨first, p₁, hFirst, h⟩
    · exact Balanced.strays h
    obtain ⟨-, rfl, rfl⟩ := expect_eq_ok hFirst
    rcases bind_eq_fail h with h | ⟨u, p₂, hEnter, h⟩
    · exact .after (.advance p) ((balanced_of_elementary enter).strays h)
    obtain ⟨-, rfl⟩ := enter_eq_ok hEnter
    refine Strays.block ?_
    rcases bind_eq_fail h with h | ⟨u, p₃, hScope, h⟩
    · cases h
    cases hScope
    rcases bind_eq_fail h with h | ⟨u, s, hRun, h⟩
    · exact hDecls.strays h
    have hs : Onward p.inBlock s := Runs.related hRun
    rcases bind_eq_fail h with h | ⟨n, s', hRounds, h⟩
    · cases h
    cases hRounds
    rcases bind_eq_fail h with h | ⟨ids, r, hStmts, h⟩
    · exact .after hs (Balanced.strays h)
    have hr : Onward p.inBlock r := hs.trans (Runs.related hStmts)
    rcases bind_eq_fail h with h | ⟨u, r', hClose, h⟩
    · exact .after hr (Balanced.strays h)
    obtain ⟨-, rfl⟩ := expectSymbol_eq_ok hClose
    rw [bind_of_ok (popScope_of_outer (p := r.advanced) hr.outer)] at h
    cases h

instance balanced_blockAt (levels : Nat) (decls : List NodeId) :
    Balanced (blockAt levels decls) := by
  induction levels generalizing decls with
  | zero =>
    unfold blockAt
    infer_instance
  | succ levels ih => exact balanced_blockWith ⟨exprAt levels, blockAt levels⟩ decls

instance balanced_here (rule : Inner → Parse α)
    [h : ∀ levels, Balanced (rule ⟨exprAt levels, blockAt levels⟩)] : Balanced (here rule) where
  visits p := exists_visits_bind ⟨_, .one (.look innerOf) p⟩ fun inner q hLook => by
    cases hLook
    exact (h _).visits p
  strays hFail := (h _).strays hFail

end Parse

end StageScript

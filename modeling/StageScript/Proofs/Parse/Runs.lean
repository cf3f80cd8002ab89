import Mathlib
import StageScript.Parse.Script
import StageScript.Proofs.Grammar.Steps

/-!
# Runs that end well

What a rule does to a parser, if it ends well, is often a matter of the steps it is put
together from: if every step leads from a parser to a related one, and the relation is
reflexive and transitive (`Path`), then so does the rule.  `Runs R step` says that `step`
does.  It is a class, so that it is found by following the steps of a rule.

A relation need only be kept by the few things that a parser can do: by reading, declaring
and nesting (`Walks`), and by adding a node (`Bears`).  Most nodes of statements have no operands
and no other parts that are expressions, and a relation may bear just these (`BearsPlain`).  No
rule adds a node that only the host declares, so a relation need not bear those (`BearsScript`).

`Onward` is what holds of all rules: they read on, the tree grows, names are declared in the
innermost open block alone, and every block and level that is opened is closed again.
-/

set_option synthInstance.maxSize 4000

namespace StageScript

/-! ### Reading on -/

structure Onward (p q : Parser) : Prop where
  tokens : q.tokens = p.tokens
  file : q.file = p.file
  grammar : q.knowsGrammar = p.knowsGrammar
  nesting : q.nesting = p.nesting
  outer : q.outer = p.outer
  table : p.table.entries <+: q.table.entries
  tree : p.tree.Extends q.tree
  pos_le : p.pos ≤ q.pos

namespace Onward

theorem refl (p : Parser) : Onward p p :=
  ⟨rfl, rfl, rfl, rfl, rfl, List.prefix_refl _, .refl _, Nat.le_refl _⟩

theorem trans {p q r : Parser} (h : Onward p q) (g : Onward q r) : Onward p r where
  tokens := g.tokens.trans h.tokens
  file := g.file.trans h.file
  grammar := g.grammar.trans h.grammar
  nesting := g.nesting.trans h.nesting
  outer := g.outer.trans h.outer
  table := h.table.trans g.table
  tree := h.tree.trans g.tree
  pos_le := h.pos_le.trans g.pos_le

theorem advance (p : Parser) : Onward p p.advanced :=
  { refl p with pos_le := Nat.le_succ _ }

theorem push (p : Parser) (node : Node) : Onward p { p with tree := p.tree.push node } :=
  { refl p with tree := .push _ _ }

theorem declare {p : Parser} {name : String} {id : NodeId} {table : NameTable}
    (h : p.table.declare? name id = some table) : Onward p { p with table } := by
  refine { refl p with table := ?_ }
  rw [NameTable.declare?] at h
  split at h
  · cases h
  · cases h
    exact List.prefix_append _ _

theorem nested {p q : Parser} (h : Onward { p with nesting := p.nesting + 1 } q) :
    Onward p { q with nesting := q.nesting - 1 } :=
  { h with nesting := by simp [h.nesting] }

end Onward

namespace Parser

/-- The parser inside a block, of which it has read the opening symbol. -/
def inBlock (p : Parser) : Parser :=
  { p.advanced with
    nesting := p.nesting + 1, table := NameTable.empty, outer := p.table :: p.outer }

def behindBlock (p : Parser) (table : NameTable) (outer : Chain) : Parser :=
  { p.advanced with nesting := p.nesting - 1, table, outer }

def hosting (p : Parser) (ds : List Definition) (span : Span) : Parser :=
  { p with
    tree := { p.tree with nodes := p.tree.nodes ++ (ds.map fun d => ⟨.definition d, span⟩).toArray }
    table := ⟨p.table.entries ++ (ds.zipIdx p.tree.size).map fun d => (d.1.name, d.2)⟩ }

end Parser

theorem Onward.block {p q : Parser} (h : Onward p.inBlock q) :
    Onward p (q.behindBlock p.table p.outer) where
  tokens := h.tokens
  file := h.file
  grammar := h.grammar
  nesting := by simp [Parser.behindBlock, h.nesting, Parser.inBlock]
  outer := rfl
  table := List.prefix_refl _
  tree := h.tree
  pos_le := by
    have hPos := h.pos_le
    simp only [Parser.inBlock, Parser.behindBlock, Parser.advanced] at hPos ⊢
    omega

/-! ### Parts that are expressions -/

/-- The parts of a node that are operands, elements, arguments, arrays, indices, ranges or
bounds of ranges. -/
@[reducible] def NodeKind.exprParts : NodeKind → List NodeId
  | array elems => elems
  | unary _ operand => [operand]
  | binary _ lhs rhs => [lhs, rhs]
  | call _ args => args
  | callStmt _ args => args
  | element base index => [base, index]
  | range start stop => [start, stop]
  | slice base bounds => [base, bounds]
  | target _ indices => indices
  | ascent bounds _ => [bounds]
  | descent bounds _ => [bounds]
  | _ => []

@[reducible] def NodeKind.isHosted : NodeKind → Bool
  | definition (.hostFunc _ _ _ _) => true
  | definition (.hostConst _ _) => true
  | _ => false

namespace Parse

class Blank (ids : List NodeId) : Prop where
  eq_nil : ids = []

instance blank_nil : Blank [] := ⟨rfl⟩

instance blank_headerKind (text : List Char) : Blank (headerKind text).exprParts := ⟨rfl⟩

class Native (hosted : Bool) : Prop where
  eq_false : hosted = false

instance native_false : Native false := ⟨rfl⟩

instance native_headerKind (text : List Char) : Native (headerKind text).isHosted := ⟨rfl⟩

/-! ### Relations that runs keep -/

/-- A relation that several steps in turn keep if each of them does. -/
class Path (R : Parser → Parser → Prop) : Prop where
  refl : ∀ p, R p p
  trans : ∀ {p q r}, R p q → R q r → R p r

def Returns {α : Type} (P : α → Prop) (step : Parse α) : Prop :=
  ∀ {p q : Parser} {a : α}, step p = .ok a q → P a

/-- A step that ends well leads from a parser to a related one. -/
class Runs (R : Parser → Parser → Prop) {α : Type} (step : Parse α) : Prop where
  related : ∀ {p q : Parser} {a : α}, step p = .ok a q → R p q

/-- Reading, declaring and nesting keep the relation. -/
class Walks (R : Parser → Parser → Prop) : Prop extends Path R where
  advance : ∀ p : Parser, R p p.advanced
  declare : ∀ {p : Parser} {name : String} {id : NodeId} {table : NameTable},
    p.table.declare? name id = some table → R p { p with table }
  nested : ∀ {p q : Parser}, R { p with nesting := p.nesting + 1 } q →
    R p { q with nesting := q.nesting - 1 }
  block : ∀ {p q : Parser}, R p.inBlock q → Onward p.inBlock q →
    R p (q.behindBlock p.table p.outer)

class Bears (R : Parser → Parser → Prop) (kind : NodeKind) : Prop where
  push : ∀ (p : Parser) (span : Span), R p { p with tree := p.tree.push ⟨kind, span⟩ }

class BearsPlain (R : Parser → Parser → Prop) : Prop where
  bears : ∀ kind : NodeKind, kind.exprParts = [] → Bears R kind

class BearsScript (R : Parser → Parser → Prop) : Prop where
  bears : ∀ kind : NodeKind, kind.isHosted = false → Bears R kind

class BearsStmts (R : Parser → Parser → Prop) : Prop where
  bears : ∀ kind : NodeKind, kind.exprParts = [] → kind.isHosted = false → Bears R kind

instance walks_onward : Walks Onward where
  refl := Onward.refl
  trans := Onward.trans
  advance := Onward.advance
  declare := Onward.declare
  nested := Onward.nested
  block h _ := h.block

instance bears_onward (kind : NodeKind) : Bears Onward kind := ⟨fun p _ => .push p _⟩

instance bearsScript_onward : BearsScript Onward := ⟨fun kind _ => bears_onward kind⟩

variable {R : Parser → Parser → Prop} {α β : Type}

instance (priority := low) bears_of_blank [BearsPlain R] (kind : NodeKind)
    [h : Blank kind.exprParts] : Bears R kind :=
  BearsPlain.bears kind h.eq_nil

instance (priority := low) bears_of_native [BearsScript R] (kind : NodeKind)
    [h : Native kind.isHosted] : Bears R kind :=
  BearsScript.bears kind h.eq_false

instance (priority := low) bears_of_blank_native [BearsStmts R] (kind : NodeKind)
    [h : Blank kind.exprParts] [g : Native kind.isHosted] : Bears R kind :=
  BearsStmts.bears kind h.eq_nil g.eq_false

instance (priority := low) bearsStmts_of_plain [BearsPlain R] : BearsStmts R :=
  ⟨fun kind h _ => BearsPlain.bears kind h⟩

instance (priority := low) bearsStmts_of_script [BearsScript R] : BearsStmts R :=
  ⟨fun kind _ => BearsScript.bears kind⟩

/-! ### Steps -/

section Steps

instance runs_fail (d : Diagnostic) : Runs R (fail d : Parse α) where
  related h := by cases h

instance runs_unexpected (reason : String) : Runs R (unexpected reason : Parse α) where
  related h := by cases h

instance runs_tooDeep : Runs R (tooDeep : Parse α) where
  related h := by cases h

instance runs_ite {c : Prop} [Decidable c] (step other : Parse α) [Runs R step] [Runs R other] :
    Runs R (if c then step else other) := by
  split <;> infer_instance

instance runs_push (kind : NodeKind) (span : Span) [h : Bears R kind] :
    Runs R (push kind span) where
  related hRun := by
    cases hRun
    exact h.push _ _

variable [Path R]

instance runs_pure (a : α) : Runs R (pure a) where
  related h := by
    cases h
    exact Path.refl _

instance runs_bind (step : Parse α) (next : α → Parse β) [Runs R step] [∀ a, Runs R (next a)] :
    Runs R (step >>= next) where
  related h := by
    obtain ⟨a, q, hStep, hNext⟩ := bind_eq_ok h
    exact Path.trans (Runs.related hStep) (Runs.related hNext)

/-- What a step gives can be used for those behind it. -/
theorem runs_bind_of {P : α → Prop} {step : Parse α} (next : α → Parse β) [Runs R step]
    (hs : Returns P step) (hn : ∀ a, P a → Runs R (next a)) : Runs R (step >>= next) where
  related h := by
    obtain ⟨a, q, hStep, hNext⟩ := bind_eq_ok h
    exact Path.trans (Runs.related hStep) ((hn a (hs hStep)).related hNext)

instance (priority := high) runs_pure_bind (a : α) (next : α → Parse β) [h : Runs R (next a)] :
    Runs R (pure a >>= next) where
  related hRun := h.related hRun

instance runs_map (f : α → β) (step : Parse α) [Runs R step] : Runs R (f <$> step) :=
  runs_bind step fun a => pure (f a)

instance runs_look (f : Parser → α) : Runs R (look f) where
  related h := by
    cases h
    exact Path.refl _

instance runs_atKind (kind : TokenKind) : Runs R (atKind kind) := runs_look _

instance runs_atSymbol (s : Symbol) : Runs R (atSymbol s) := runs_look _

instance runs_lookup (f : Tree → Except Diagnostic α) : Runs R (lookup f) where
  related h := by
    rw [lookup] at h
    split at h <;> cases h
    exact Path.refl _

/-- A step for each of some items. -/
theorem runs_forM {ι : Type} {step : ι → Parse Unit} (h : ∀ i, Runs R (step i)) (is : List ι) :
    Runs R (is.forM step) := by
  induction is with
  | nil => exact runs_pure ()
  | cons i is ih => exact runs_bind (step i) fun _ => is.forM step

instance runs_pushFrom (start : Position) (kind : NodeKind) [Bears R kind] :
    Runs R (pushFrom start kind) := by
  unfold pushFrom
  infer_instance

end Steps

/-! ### Tokens and declarations -/

theorem expectOr_eq_ok {kind : TokenKind} {d : Diagnostic} {p q : Parser} {token : Token}
    (h : expectOr kind d p = .ok token q) : p.kind = kind ∧ token = p.current ∧ q = p.advanced := by
  rw [expectOr] at h
  split at h <;> cases h
  exact ⟨‹_›, rfl, rfl⟩

theorem expect_eq_ok {kind : TokenKind} {p q : Parser} {token : Token}
    (h : expect kind p = .ok token q) : p.kind = kind ∧ token = p.current ∧ q = p.advanced :=
  expectOr_eq_ok (d := p.complaint s!"expected {kind.name}") h

section Tokens

variable [Walks R]

instance runs_advance : Runs R advance where
  related h := by
    cases h
    exact Walks.advance _

instance runs_expectOr (kind : TokenKind) (d : Diagnostic) : Runs R (expectOr kind d) where
  related h := by
    obtain ⟨-, -, rfl⟩ := expectOr_eq_ok h
    exact Walks.advance _

instance runs_expect (kind : TokenKind) : Runs R (expect kind) := by
  unfold expect
  infer_instance

instance runs_expectSymbol (s : Symbol) : Runs R (expectSymbol s) := by
  unfold expectSymbol
  infer_instance

instance runs_expectName (context : String) : Runs R (expectName context) := by
  unfold expectName
  infer_instance

instance runs_eat (kind : TokenKind) : Runs R (eat kind) where
  related h := by
    rw [eat] at h
    split at h <;> cases h
    · exact Walks.advance _
    · exact Path.refl _

instance runs_bindName (name : String) (id : NodeId) (position : Position) :
    Runs R (bindName name id position) where
  related h := by
    rw [bindName] at h
    split at h
    · cases h
      exact Walks.declare ‹_›
    · cases h

instance runs_declare (d : Definition) (span : Span) [Bears R (.definition d)] :
    Runs R (declare d span) := by
  unfold declare
  infer_instance

instance runs_declareExisting (id : NodeId) : Runs R (declareExisting id) := by
  unfold declareExisting
  infer_instance

instance runs_nested (step : Parse α) [Runs R step] : Runs R (nested step) where
  related h := by
    obtain ⟨-, r, hStep, rfl⟩ := nested_eq_ok h
    exact Walks.nested (Runs.related hStep)

theorem runs_commaItems (close : TokenKind) (item : Parse NodeId) [Runs R item] (n : Nat) :
    Runs R (commaItems close item n) := by
  induction n with
  | zero => exact runs_pure []
  | succ n ih =>
    unfold commaItems
    infer_instance

instance runs_commaList (close : Symbol) (item : Parse NodeId) [Runs R item] :
    Runs R (commaList close item) := by
  have hItems : ∀ n, Runs R (commaItems (.symbol close) item n) := runs_commaItems _ item
  unfold commaList
  infer_instance

instance runs_callArgs (expr : ExprParser) [∀ power, Runs R (expr power)] :
    Runs R (callArgs expr) := by
  unfold callArgs
  infer_instance

end Tokens

/-! ### Expressions -/

section Expressions

variable [Walks R] [BearsScript R] (expr : ExprParser) [∀ power, Runs R (expr power)]

instance runs_pushBinary (op : BinaryOp) (left right : NodeId) :
    Runs R (pushBinary op left right) := by
  unfold pushBinary
  infer_instance

instance runs_pushAfter (left right : NodeId) (kind : NodeKind) [Bears R kind] :
    Runs R (pushAfter left right kind) := by
  unfold pushAfter
  infer_instance

theorem isHosted_literalKind {token : Token} {kind : NodeKind} (h : literalKind token = .ok kind) :
    kind.isHosted = false := by
  rw [literalKind] at h
  split at h
  · split at h <;> cases h
    rfl
  · split at h <;> cases h
    rfl
  · cases h
    rfl
  · cases h

instance runs_literal : Runs R literal := by
  have hKind : ∀ token, Runs R (match literalKind token with
      | .ok kind => push kind token.span
      | .error cause => fail ⟨cause, token.span.start⟩) := by
    intro token
    split
    · have := BearsScript.bears (R := R) _ (isHosted_literalKind ‹_›)
      infer_instance
    · infer_instance
  unfold literal
  infer_instance

instance runs_head (kind : Head) : Runs R (head expr kind) := by
  cases kind with
  | literal => exact runs_literal
  | name => show Runs R (name expr); unfold name; infer_instance
  | array => show Runs R (arrayLiteral expr); unfold arrayLiteral; infer_instance
  | group => show Runs R (group expr); unfold group; infer_instance
  | absolute => show Runs R (absolute expr); unfold absolute; infer_instance
  | sign => show Runs R (sign expr); unfold sign; infer_instance

instance runs_binary (left : NodeId) (power : Power) : Runs R (binary expr left power) := by
  have hOperator : ∀ token : Token, Runs R (match BinaryOp.ofKind? token.kind with
      | some op => do
        let right ← expr power
        pushBinary op left right
      | none => fail ⟨.unexpected token.value, token.span.start⟩) := by
    intro token
    split <;> infer_instance
  unfold binary
  infer_instance

instance runs_tail (left : NodeId) (power : Power) (kind : Tail) :
    Runs R (tail expr left power kind) := by
  cases kind with
  | binary => exact runs_binary expr left power
  | exponent => show Runs R (exponent expr left); unfold exponent; infer_instance
  | index => show Runs R (index expr left); unfold index; infer_instance

instance runs_extend (power : Power) (n : Nat) (left : NodeId) :
    Runs R (extend expr power n left) := by
  induction n generalizing left with
  | zero => exact runs_pure left
  | succ n ih =>
    have hNext : ∀ found, Runs R (extendBy expr power left (extend expr power n) found) := by
      intro found
      unfold extendBy
      split <;> infer_instance
    rw [extend_succ]
    exact runs_bind (look _) _

instance runs_exprWith (power : Power) : Runs R (exprWith expr power) := by
  have hHead : ∀ found : Option Head, Runs R (match found with
      | none => unexpected "expected an expression"
      | some kind => do
        let left ← head expr kind
        extend expr power (← look Parser.rounds) left) := by
    intro found
    split <;> infer_instance
  exact runs_bind (look _) _

instance runs_exprAt (levels : Nat) (power : Power) : Runs R (exprAt levels power) := by
  induction levels generalizing power with
  | zero => exact runs_tooDeep
  | succ levels ih => exact runs_nested _

end Expressions

/-! ### Statements -/

section Statements

variable [Walks R] [BearsStmts R] (inner : Inner) [∀ power, Runs R (inner.expr power)]

instance runs_condition : Runs R (condition inner) := by
  unfold condition
  infer_instance

instance runs_param : Runs R param := by
  unfold param
  infer_instance

instance runs_params : Runs R params := by
  unfold params
  infer_instance

instance runs_indices (expr : ExprParser) [∀ power, Runs R (expr power)] (n : Nat) :
    Runs R (indices expr n) := by
  induction n with
  | zero => exact runs_pure []
  | succ n ih =>
    unfold indices
    infer_instance

instance runs_update (expr : ExprParser) [∀ power, Runs R (expr power)] (lhs : NodeId)
    (operator : Token) : Runs R (update expr lhs operator) := by
  unfold update
  split
  · infer_instance
  · infer_instance
  · split <;> infer_instance

theorem returns_update (expr : ExprParser) (lhs : NodeId) (operator : Token) :
    Returns (fun kind => kind.isHosted = false) (update expr lhs operator) := by
  unfold update
  split
  · rintro p q kind ⟨⟩
    rfl
  · rintro p q kind ⟨⟩
    rfl
  · split
    · intro p q kind h
      obtain ⟨rhs, r, -, hEnd⟩ := bind_eq_ok h
      cases hEnd
      rfl
    · rintro p q kind ⟨⟩

instance runs_assignOrCall [BearsScript R] : Runs R (assignOrCall inner) := by
  have hUpdate : ∀ (start : Position) (lhs : NodeId) (operator : Token),
      Runs R (update inner.expr lhs operator >>= fun kind => do
        expectSymbol .semicolon
        pushFrom start kind) := by
    intro start lhs operator
    refine runs_bind_of _ (returns_update inner.expr lhs operator) fun kind hKind => ?_
    have := BearsScript.bears (R := R) kind hKind
    infer_instance
  unfold assignOrCall
  infer_instance

variable [∀ decls, Runs R (inner.block decls)]

instance runs_ascent [BearsScript R] : Runs R (ascent inner) := by
  have hBears : ∀ (token : Token) (bounds body : NodeId),
      Bears R (if token.kind = .keyword .descentWord then .descent bounds body
        else .ascent bounds body) := by
    intro token bounds body
    split <;> infer_instance
  unfold ascent
  infer_instance

instance runs_elseBranches (n : Nat) : Runs R (elseBranches inner n) := by
  induction n with
  | zero => exact runs_pure _
  | succ n ih =>
    unfold elseBranches
    infer_instance

instance runs_caseBranches (n : Nat) : Runs R (caseBranches inner n) := by
  induction n with
  | zero => exact runs_pure _
  | succ n ih =>
    unfold caseBranches
    dsimp only
    infer_instance

instance runs_form [Runs R (assignOrCall inner)] [Runs R (ascent inner)] (kind : Form) :
    Runs R (form inner kind) := by
  cases kind <;> unfold form
  case varDecl => unfold varDecl; infer_instance
  case callableDef => unfold callableDef; infer_instance
  case subDef => unfold subDef; infer_instance
  case entryRoutine => unfold entryRoutine; infer_instance
  case header => unfold header; infer_instance
  case ifElse => unfold ifElse; infer_instance
  case loop => unfold loop; infer_instance
  case times => unfold times; infer_instance
  case whileLoop => unfold whileLoop; infer_instance
  case ascent => infer_instance
  case alternative => unfold alternative; infer_instance
  case localBlock => unfold localBlock; infer_instance
  case returnStmt => unfold returnStmt; infer_instance
  case yieldStmt => unfold wordStmt; infer_instance
  case breakStmt => unfold wordStmt; infer_instance
  case assignOrCall => infer_instance
  case nop => unfold nop; infer_instance

instance runs_stmtWith [Runs R (assignOrCall inner)] [Runs R (ascent inner)] :
    Runs R (stmtWith inner) := by
  have hForm : ∀ found : Option Form, Runs R (match found with
      | none => unexpected "expected a statement"
      | some kind => form inner kind) := by
    intro found
    split <;> infer_instance
  exact runs_bind (look _) _

instance runs_stmts [Runs R (assignOrCall inner)] [Runs R (ascent inner)]
    (stop : Parser → Bool) (n : Nat) : Runs R (stmts inner stop n) := by
  induction n with
  | zero => exact runs_pure []
  | succ n ih =>
    unfold stmts
    infer_instance

end Statements

/-! ### Blocks -/

instance runs_declareAll [Walks R] (decls : List NodeId) : Runs R (decls.forM fun id => do
    let _ ← declareExisting id) :=
  runs_forM (fun _ => inferInstance) decls

theorem enter_eq_ok {p q : Parser} {u : Unit} (h : enter p = .ok u q) :
    p.nesting < maxNesting ∧ q = { p with nesting := p.nesting + 1 } := by
  rw [enter] at h
  split at h <;> cases h
  exact ⟨Nat.lt_of_not_le ‹_›, rfl⟩

theorem popScope_of_outer {p : Parser} {table : NameTable} {outer : Chain}
    (h : p.outer = table :: outer) : popScope p = .ok p.table { p with table, outer } := by
  rw [popScope, h]

/-- A block that ends well: its definitions are declared and its statements parsed inside it,
and it is closed behind them. -/
theorem blockWith_eq_ok {inner : Inner} [∀ power, Runs Onward (inner.expr power)]
    [∀ decls, Runs Onward (inner.block decls)] {decls : List NodeId} {p q : Parser} {id : NodeId}
    (h : blockWith inner decls p = .ok id q) :
    ∃ s r ids, p.kind = .symbol .openCurly ∧ p.nesting < maxNesting ∧
      (decls.forM fun id => do let _ ← declareExisting id) p.inBlock = .ok () s ∧
      stmts inner (fun p => p.kind = .symbol .closeCurly) s.rounds s = .ok ids r ∧
      r.kind = .symbol .closeCurly ∧ Onward p.inBlock r ∧
      pushFrom p.position (.block ids r.table) (r.behindBlock p.table p.outer) = .ok id q := by
  obtain ⟨first, p₁, hFirst, hRest⟩ := bind_eq_ok h
  obtain ⟨hOpen, rfl, rfl⟩ := expect_eq_ok hFirst
  obtain ⟨u, p₂, hEnter, hRest⟩ := bind_eq_ok hRest
  obtain ⟨u, p₃, hScope, hRest⟩ := bind_eq_ok hRest
  obtain ⟨u, s, hDecls, hRest⟩ := bind_eq_ok hRest
  obtain ⟨n, s', hRounds, hRest⟩ := bind_eq_ok hRest
  obtain ⟨ids, r, hStmts, hRest⟩ := bind_eq_ok hRest
  obtain ⟨u, r', hClose, hEnd⟩ := bind_eq_ok hRest
  obtain ⟨hKind, rfl⟩ := expectSymbol_eq_ok hClose
  cases hRounds
  cases hScope
  obtain ⟨hRoom, rfl⟩ := enter_eq_ok hEnter
  have hOnward : Onward p.inBlock r := Path.trans (Runs.related hDecls) (Runs.related hStmts)
  refine ⟨s, r, ids, hOpen, hRoom, hDecls, hStmts, hKind, hOnward, ?_⟩
  rw [bind_of_ok (popScope_of_outer (p := r.advanced) hOnward.outer)] at hEnd
  exact hEnd

theorem runs_blockWith [Walks R] [BearsStmts R] (inner : Inner)
    [∀ power, Runs Onward (inner.expr power)] [∀ decls, Runs Onward (inner.block decls)]
    (decls : List NodeId) (h : ∀ stop n, Runs R (stmts inner stop n)) :
    Runs R (blockWith inner decls) where
  related hRun := by
    obtain ⟨s, r, ids, -, -, hDecls, hStmts, -, hOnward, hPush⟩ := blockWith_eq_ok hRun
    have hInside : R _ r := Path.trans (Runs.related hDecls) ((h _ _).related hStmts)
    exact Path.trans (Walks.block hInside hOnward) (Runs.related hPush)

instance runs_blockAt (levels : Nat) (decls : List NodeId) :
    Runs Onward (blockAt levels decls) := by
  induction levels generalizing decls with
  | zero =>
    unfold blockAt
    infer_instance
  | succ levels ih =>
    exact runs_blockWith ⟨exprAt levels, blockAt levels⟩ decls fun _ _ => inferInstance

/-! ### Taking tokens -/

class Takes (step : Parse α) : Prop where
  pos_lt : ∀ {p q : Parser} {a : α}, step p = .ok a q → p.pos < q.pos

section Taking

instance takes_advance : Takes advance where
  pos_lt h := by
    cases h
    exact Nat.lt_succ_self _

instance takes_tooDeep : Takes (tooDeep : Parse α) where
  pos_lt h := by cases h

instance takes_unexpected (reason : String) : Takes (unexpected reason : Parse α) where
  pos_lt h := by cases h

instance takes_bind (step : Parse α) (next : α → Parse β) [hs : Takes step]
    [∀ a, Runs Onward (next a)] : Takes (step >>= next) where
  pos_lt h := by
    obtain ⟨a, r, hStep, hNext⟩ := bind_eq_ok h
    have hOnward : Onward r _ := Runs.related hNext
    exact (hs.pos_lt hStep).trans_le hOnward.pos_le

theorem takes_next (step : Parse α) (next : α → Parse β) [Runs Onward step]
    (hn : ∀ a, Takes (next a)) : Takes (step >>= next) where
  pos_lt {p q b} h := by
    obtain ⟨a, r, hStep, hNext⟩ := bind_eq_ok h
    have hOnward : Onward p r := Runs.related hStep
    exact hOnward.pos_le.trans_lt ((hn a).pos_lt hNext)

instance takes_map (f : α → β) (step : Parse α) [Takes step] : Takes (f <$> step) :=
  takes_bind step fun a => pure (f a)

instance takes_nested (step : Parse α) [hs : Takes step] : Takes (nested step) where
  pos_lt h := by
    obtain ⟨-, r, hStep, rfl⟩ := nested_eq_ok h
    have hPos := hs.pos_lt hStep
    exact hPos

instance takes_exprWith (expr : ExprParser) [∀ power, Runs Onward (expr power)] (power : Power) :
    Takes (exprWith expr power) := by
  have hHead : ∀ kind, Takes (head expr kind) := by
    intro kind
    cases kind with
    | literal =>
      have hKind : ∀ token, Runs Onward (match literalKind token with
          | .ok kind => push kind token.span
          | .error cause => fail ⟨cause, token.span.start⟩) := by
        intro token
        split <;> infer_instance
      show Takes literal
      unfold literal
      infer_instance
    | name => show Takes (name expr); unfold name; infer_instance
    | array => show Takes (arrayLiteral expr); unfold arrayLiteral; infer_instance
    | group => show Takes (group expr); unfold group; infer_instance
    | absolute => show Takes (absolute expr); unfold absolute; infer_instance
    | sign => show Takes (sign expr); unfold sign; infer_instance
  refine takes_next (look _) _ fun found => ?_
  cases found with
  | none => exact takes_unexpected _
  | some kind => exact takes_bind (head expr kind) _

instance takes_tail (expr : ExprParser) [∀ power, Runs Onward (expr power)] (left : NodeId)
    (power : Power) (kind : Tail) : Takes (tail expr left power kind) := by
  cases kind with
  | binary =>
    have hOperator : ∀ token : Token, Runs Onward (match BinaryOp.ofKind? token.kind with
        | some op => do
          let right ← expr power
          pushBinary op left right
        | none => fail ⟨.unexpected token.value, token.span.start⟩) := by
      intro token
      split <;> infer_instance
    exact takes_bind advance _
  | exponent => show Takes (exponent expr left); unfold exponent; infer_instance
  | index => show Takes (index expr left); unfold index; infer_instance

instance takes_exprAt (levels : Nat) (power : Power) : Takes (exprAt levels power) := by
  cases levels with
  | zero => exact takes_tooDeep
  | succ levels => exact takes_nested _

instance takes_stmtWith (inner : Inner) [∀ power, Runs Onward (inner.expr power)]
    [∀ decls, Runs Onward (inner.block decls)] : Takes (stmtWith inner) := by
  have hForm : ∀ kind, Takes (form inner kind) := by
    intro kind
    cases kind <;> unfold form
    case varDecl => unfold varDecl; infer_instance
    case callableDef => unfold callableDef; infer_instance
    case subDef => unfold subDef; infer_instance
    case entryRoutine => unfold entryRoutine; infer_instance
    case header => unfold header; infer_instance
    case ifElse => unfold ifElse; infer_instance
    case loop => unfold loop; infer_instance
    case times => unfold times; infer_instance
    case whileLoop => unfold whileLoop; infer_instance
    case ascent => unfold ascent; infer_instance
    case alternative => unfold alternative; infer_instance
    case localBlock => unfold localBlock; infer_instance
    case returnStmt => unfold returnStmt; infer_instance
    case yieldStmt => unfold wordStmt; infer_instance
    case breakStmt => unfold wordStmt; infer_instance
    case assignOrCall => unfold assignOrCall; infer_instance
    case nop => unfold nop; infer_instance
  refine takes_next (look _) _ fun found => ?_
  cases found with
  | none => exact takes_unexpected _
  | some kind => exact hForm kind

end Taking

/-- With enough rounds, statements end where no statement starts. -/
theorem stmts_stopped {inner : Inner} [∀ power, Runs Onward (inner.expr power)]
    [∀ decls, Runs Onward (inner.block decls)] {stop : Parser → Bool} {n : Nat} {p q : Parser}
    {ids : List NodeId} (h : stmts inner stop n p = .ok ids q)
    (hRounds : p.tokens.size - p.pos < n) : (q.hasTokens && !stop q) = false := by
  induction n generalizing p ids with
  | zero => exact absurd hRounds (Nat.not_lt_zero _)
  | succ n ih =>
    obtain ⟨more, p', hLook, hRest⟩ := bind_eq_ok h
    cases hLook
    split at hRest
    · rename_i hMore
      obtain ⟨found, r, hStmt, hRest⟩ := bind_eq_ok hRest
      obtain ⟨rest, q', hStmts, hEnd⟩ := bind_eq_ok hRest
      cases hEnd
      have hOnward : Onward p r := Runs.related hStmt
      have hPos := Takes.pos_lt hStmt
      have hInside : p.pos < p.tokens.size := by
        simp only [Parser.hasTokens, Bool.and_eq_true, decide_eq_true_eq] at hMore
        exact hMore.1.1
      refine ih hStmts ?_
      rw [hOnward.tokens]
      omega
    · cases hRest
      exact Bool.eq_false_iff.2 ‹_›

/-! ### Scripts -/

end Parse

def Parser.closed (p : Parser) (ids : List NodeId) (file : String) : Tree :=
  ⟨(p.tree.push ⟨.block ids p.table, p.spanFrom ⟨0, file⟩⟩).nodes, p.tree.size⟩

section Closed

variable {p : Parser} {ids : List NodeId} {file : String} {id : NodeId}

theorem Parser.closed_get?_of_lt (h : id < p.tree.size) :
    (p.closed ids file).get? id = p.tree.get? id := by
  simp only [closed, Tree.get?, Tree.push]
  rw [Array.getElem?_push_lt h, Array.getElem?_eq_getElem h]

theorem Parser.closed_get?_size :
    (p.closed ids file).get? p.tree.size =
      some ⟨.block ids p.table, p.spanFrom ⟨0, file⟩⟩ := by
  simp [closed, Tree.get?, Tree.push, Tree.size]

theorem Parser.closed_get?_of_gt (h : p.tree.size < id) : (p.closed ids file).get? id = none := by
  have hSize : (p.tree.nodes.push ⟨.block ids p.table, p.spanFrom ⟨0, file⟩⟩).size ≤ id := by
    rw [Array.size_push]
    exact h
  exact Array.getElem?_eq_none hSize

end Closed

namespace Parse

instance runs_innerOf_expr (p : Parser) (power : Power) : Runs Onward ((innerOf p).expr power) :=
  runs_exprAt _ power

instance runs_innerOf_block (p : Parser) (decls : List NodeId) :
    Runs Onward ((innerOf p).block decls) :=
  runs_blockAt _ decls

theorem declare_eq_ok {d : Definition} {span : Span} {p q : Parser} {id : NodeId}
    (h : declare d span p = .ok id q) :
    id = p.tree.size ∧ q = p.hosting [d] span := by
  change bindName d.name p.tree.next span.start _ = _ at h
  rw [bindName] at h
  split at h
  · rename_i table hTable
    rw [NameTable.declare?] at hTable
    split at hTable <;> cases hTable
    cases h
    exact ⟨rfl, by simp [Parser.hosting, Tree.push, NameTable.insert, Tree.next, Tree.size]⟩
  · cases h

theorem declareAll_eq_ok {ds : List Definition} {span : Span} {p q : Parser} {u : Unit}
    (h : (ds.forM fun d => do let _ ← declare d span) p = .ok u q) : q = p.hosting ds span := by
  induction ds generalizing p with
  | nil =>
    cases h
    simp [Parser.hosting]
  | cons d ds ih =>
    obtain ⟨v, r, hFirst, hRest⟩ := bind_eq_ok h
    obtain ⟨id, r', hDeclare, hEnd⟩ := bind_eq_ok hFirst
    cases hEnd
    obtain ⟨-, rfl⟩ := declare_eq_ok hDeclare
    rw [ih hRest]
    simp [Parser.hosting, Tree.size]

/-- A script that ends well: the definitions of the host are declared, the statements are parsed
to the end, and the root is put around them. -/
theorem script_eq_ok {host : Host} {p q : Parser} {u : Unit} (h : script host p = .ok u q) :
    ∃ r s ids, (host.definitions.forM fun d => do
        let _ ← declare d ⟨⟨0, p.file⟩, ⟨0, p.file⟩⟩) p = .ok () r ∧
      stmts (innerOf r) (fun _ => false) r.rounds r = .ok ids s ∧ s.hasTokens = false ∧
      q.tree = ⟨(s.tree.push ⟨.block ids s.table, s.spanFrom ⟨0, p.file⟩⟩).nodes, s.tree.size⟩ := by
  obtain ⟨origin, p₁, hLook, h⟩ := bind_eq_ok h
  cases hLook
  obtain ⟨u, r, hHost, h⟩ := bind_eq_ok h
  obtain ⟨ids, s, hStmts, h⟩ := bind_eq_ok h
  obtain ⟨table, s', hPop, h⟩ := bind_eq_ok h
  obtain ⟨root, s'', hPush, h⟩ := bind_eq_ok h
  cases h
  refine ⟨r, s, ids, hHost, hStmts, ?_, ?_⟩
  · have hStop : (s.hasTokens && !false) = false := stmts_stopped hStmts (Nat.lt_succ_self _)
    simpa using hStop
  · rw [popScope] at hPop
    split at hPop <;> cases hPop <;> cases hPush <;> rfl

section Script

variable {tokens : List Token} {file : String} {host : Host} {r s : Parser}

/-- A script whose statements end well. -/
theorem parse_of_ok {ids : List NodeId}
    (hHost : (host.definitions.forM fun d => do
      let _ ← declare d ⟨⟨0, file⟩, ⟨0, file⟩⟩) (Parser.start tokens file true) = .ok () r)
    (h : stmts (innerOf r) (fun _ => false) r.rounds r = .ok ids s) :
    parse tokens file host = .ok (s.closed ids file) := by
  have hHere : (here fun inner => do
      stmts inner (fun _ => false) (← look Parser.rounds)) r = .ok ids s := h
  have hOuter : s.outer = [] := by
    have hHosting : r = _ := declareAll_eq_ok hHost
    have hOnward : Onward r s := Runs.related h
    rw [hOnward.outer, hHosting]
    rfl
  have hPop : popScope s = .ok s.table { s with table := NameTable.empty } := by
    rw [popScope, hOuter]
  have hScript : script host (Parser.start tokens file true) = .ok () { s with
      table := NameTable.empty, tree := s.closed ids file } :=
    (bind_of_ok rfl _).trans ((bind_of_ok hHost _).trans ((bind_of_ok hHere _).trans
      (bind_of_ok hPop _)))
  rw [parse, hScript]

/-- How a tree came about. -/
theorem parse_eq_ok {t : Tree} (h : parse tokens file host = .ok t) :
    ∃ r s ids, (host.definitions.forM fun d => do
        let _ ← declare d ⟨⟨0, file⟩, ⟨0, file⟩⟩) (Parser.start tokens file true) = .ok () r ∧
      stmts (innerOf r) (fun _ => false) r.rounds r = .ok ids s ∧ t = s.closed ids file := by
  rw [parse] at h
  split at h
  · rename_i u q hRun
    cases h
    obtain ⟨r, s, ids, hHost, hStmts, -, hTree⟩ := script_eq_ok hRun
    exact ⟨r, s, ids, hHost, hStmts, hTree⟩
  · cases h

theorem script_of_fail {d : Diagnostic}
    (hHost : (host.definitions.forM fun d => do
      let _ ← declare d ⟨⟨0, file⟩, ⟨0, file⟩⟩) (Parser.start tokens file true) = .ok () r)
    (h : stmts (innerOf r) (fun _ => false) r.rounds r = .fail d s) :
    script host (Parser.start tokens file true) = .fail d s := by
  have hHere : (here fun inner => do
      stmts inner (fun _ => false) (← look Parser.rounds)) r = .fail d s := h
  exact (bind_of_ok rfl _).trans ((bind_of_ok hHost _).trans (bind_of_fail hHere _))

theorem parse_of_fail {d : Diagnostic}
    (hHost : (host.definitions.forM fun d => do
      let _ ← declare d ⟨⟨0, file⟩, ⟨0, file⟩⟩) (Parser.start tokens file true) = .ok () r)
    (h : stmts (innerOf r) (fun _ => false) r.rounds r = .fail d s) :
    parse tokens file host = .error d := by
  rw [parse, script_of_fail hHost h]

end Script

end Parse

end StageScript

import StageScript.Proofs.Render.Program
import StageScript.Proofs.Tree.Owner

/-!
# Reading a tree back

The program that a tree keeps.  An expression and a statement are read from their node and what
is below it.  Of the items of a block only the statements are among its parts, while functions,
tasks, subroutines and routines stand in its table alone: since nodes are numbered in the order
they were made, the numbers tell where each of them stood (`Tree.items`).

What is read of a block is the names that it was given and its items, and only if its table
declares just these names and then those of the items, in their order.
-/

namespace StageScript

/-! ### Lists of optional values -/

theorem mapM_congr_of_mem {α β : Type} {f g : α → Option β} {xs : List α}
    (h : ∀ x ∈ xs, f x = g x) : xs.mapM f = xs.mapM g := by
  induction xs with
  | nil => rfl
  | cons x xs ih =>
    obtain ⟨hx, hxs⟩ := List.forall_mem_cons.mp h
    rw [List.mapM_cons, List.mapM_cons, hx, ih hxs]

theorem mapM_of_forall₂ {α β γ : Type} {f : α → Option β} {g : γ → β} {xs : List α} {ys : List γ}
    (h : List.Forall₂ (fun x y => f x = some (g y)) xs ys) : xs.mapM f = some (ys.map g) := by
  induction h with
  | nil => rfl
  | cons hx _ ih =>
    rw [List.mapM_cons, hx, ih]
    rfl

namespace Tree

variable {t : Tree}

/-! ### Expressions -/

def range? (t : Tree) (id : NodeId) : Option (NodeId × NodeId) :=
  match t.kind? id with
  | some (.range start stop) => some (start, stop)
  | _ => none

/-- The expression of a node, by those of its parts. -/
def exprOf (t : Tree) (part : NodeId → Option Expr) : NodeKind → Option Expr
  | .num value => some (.num value)
  | .char c => some (.char c)
  | .str value => some (.str value)
  | .ref name => some (.ref name)
  | .call name args => (args.mapM part).map (.call name)
  | .array elems => (elems.mapM part).map .array
  | .unary op operand => (part operand).map (.unary op)
  | .binary op lhs rhs => do return .binary op (← part lhs) (← part rhs)
  | .element base index => do return .element (← part base) (← part index)
  | .slice base bounds => do
    let (start, stop) ← t.range? bounds
    return .slice (← part base) (← part start) (← part stop)
  | _ => none

def exprAt (t : Tree) : Nat → NodeId → Option Expr
  | 0, _ => none
  | depth + 1, id => (t.kind? id).bind (t.exprOf (t.exprAt depth))

/-- The expression of a node.  Parts have smaller numbers. -/
def expr? (t : Tree) (id : NodeId) : Option Expr := t.exprAt (id + 1) id

theorem WellFormed.range?_lt (h : t.WellFormed) {id a b : NodeId}
    (hr : t.range? id = some (a, b)) : a < id ∧ b < id := by
  rw [range?] at hr
  split at hr <;> cases hr
  exact ⟨h.child_lt ‹_› (by simp [NodeKind.children]),
    h.child_lt ‹_› (by simp [NodeKind.children])⟩

/-- Only nodes with smaller numbers matter for an expression. -/
theorem WellFormed.exprOf_congr (h : t.WellFormed) {part other : NodeId → Option Expr}
    {id : NodeId} {k : NodeKind} (hk : t.kind? id = some k) (hp : ∀ c < id, part c = other c) :
    t.exprOf part k = t.exprOf other k := by
  have hPart : ∀ c ∈ k.children, part c = other c := fun c hc => hp c (h.child_lt hk hc)
  cases k with
  | array elems => exact congrArg (Option.map _) (mapM_congr_of_mem hPart)
  | call name args => exact congrArg (Option.map _) (mapM_congr_of_mem hPart)
  | unary op operand => simp only [exprOf, hPart operand (by simp [NodeKind.children])]
  | binary op lhs rhs =>
    simp only [exprOf, hPart lhs (by simp [NodeKind.children]),
      hPart rhs (by simp [NodeKind.children])]
  | element base index =>
    simp only [exprOf, hPart base (by simp [NodeKind.children]),
      hPart index (by simp [NodeKind.children])]
  | slice base bounds =>
    have hBounds := h.child_lt hk (show bounds ∈ _ by simp [NodeKind.children])
    cases hr : t.range? bounds with
    | none => simp only [exprOf, hr, Option.bind_eq_bind, Option.bind_none]
    | some r =>
      obtain ⟨hStart, hStop⟩ := h.range?_lt hr
      simp only [exprOf, hr, Option.bind_eq_bind, Option.bind_some,
        hPart base (by simp [NodeKind.children]), hp r.1 (Nat.lt_trans hStart hBounds),
        hp r.2 (Nat.lt_trans hStop hBounds)]
  | _ => rfl

theorem WellFormed.exprAt_eq (h : t.WellFormed) {depth other : Nat} {id : NodeId} :
    id < depth → id < other → t.exprAt depth id = t.exprAt other id := by
  refine eq_of_smaller (f := t.exprAt) fun d e id hSmaller => ?_
  rw [exprAt, exprAt]
  cases hk : t.kind? id with
  | none => rfl
  | some k => exact h.exprOf_congr hk hSmaller

/-- The expression of a node follows from those of its parts. -/
theorem WellFormed.expr?_eq (h : t.WellFormed) {id : NodeId} {k : NodeKind}
    (hk : t.kind? id = some k) : t.expr? id = t.exprOf t.expr? k := by
  rw [expr?, exprAt, hk]
  exact h.exprOf_congr hk fun c hc => h.exprAt_eq hc (Nat.lt_succ_self c)

/-! ### Statements -/

/-- What is read of a block: the names that it was given, and its items. -/
abbrev BlockReader := NodeId → Option (List String × List (Stmt Expr))

def BlockReader.body (block : BlockReader) (given : List String) (id : NodeId) :
    Option (List (Stmt Expr)) := do
  let (names, body) ← block id
  if names = given then some body else none

def param? (t : Tree) (id : NodeId) : Option String :=
  match t.kind? id with
  | some (.definition (.param name)) => some name
  | _ => none

def target? (t : Tree) (id : NodeId) : Option (String × List (Expr)) :=
  match t.kind? id with
  | some (.target name indices) => (indices.mapM t.expr?).map (name, ·)
  | _ => none

def branch? (t : Tree) (block : BlockReader) (id : NodeId) :
    Option (Expr × List (Stmt Expr)) :=
  match t.kind? id with
  | some (.elseIf cond body) => do return (← t.expr? cond, ← block.body [] body)
  | _ => none

def case? (t : Tree) (block : BlockReader) (id : NodeId) :
    Option ((Expr × List Expr) × List (Stmt Expr)) :=
  match t.kind? id with
  | some (.caseOf (first :: more) body) => do
    return ((← t.expr? first, ← more.mapM t.expr?), ← block.body [] body)
  | _ => none

/-- A loop over a range.  Its body was given the loop variable. -/
def rangeLoopOf (t : Tree) (block : BlockReader) (down : Bool) (bounds body : NodeId) :
    Option (Stmt Expr) := do
  let (start, stop) ← t.range? bounds
  match ← block body with
  | ([name], body) => return .rangeLoop down name (← t.expr? start) (← t.expr? stop) body
  | _ => none

def callableOf (t : Tree) (block : BlockReader) (function : Bool) (name : String)
    (params : List NodeId) (body : NodeId) : Option (Stmt Expr) := do
  let names ← params.mapM t.param?
  return .callable function name names (← block.body (Stmt.given function names) body)

/-- The statement of a node, by what is read of its blocks. -/
def stmtOf (t : Tree) (block : BlockReader) : NodeKind → Option (Stmt Expr)
  | .header name params =>
    if h : '[' ∉ name.toList ∧ ∀ s ∈ params, IsHeaderParam s then
      some (.header ⟨name, params, h.1, h.2⟩)
    else none
  | .definition (.var name) => some (.var name none)
  | .varInit name rhs => do return .var name (some (← t.expr? rhs))
  | .definition (.func name params body) => t.callableOf block true name params body
  | .definition (.task name params body) => t.callableOf block false name params body
  | .definition (.sub name body) => do return .sub name (← block.body [] body)
  | .definition (.entryRoutine name body) => do return .entryRoutine name (← block.body [] body)
  | .ifElse cond body branches last => do
    return .ifElse (← t.expr? cond) (← block.body [] body) (← branches.mapM (t.branch? block))
      (← last.mapM (block.body []))
  | .loop body => do return .loop (← block.body [] body)
  | .times count body => do return .times (← t.expr? count) (← block.body [] body)
  | .whileLoop cond body => do return .whileLoop (← t.expr? cond) (← block.body [] body)
  | .ascent bounds body => t.rangeLoopOf block false bounds body
  | .descent bounds body => t.rangeLoopOf block true bounds body
  | .alternative cond cases others => do
    return .alternative (← t.expr? cond) (← cases.mapM (t.case? block))
      (← others.mapM (block.body []))
  | .localBlock body => do return .localBlock (← block.body [] body)
  | .returnValue value => do return .returnStmt (some (← t.expr? value))
  | .returnVoid => some (.returnStmt none)
  | .yield => some .yield
  | .breakLoop => some .breakLoop
  | .assign op lhs rhs => do
    let (name, indices) ← t.target? lhs
    return .assign op name indices (← t.expr? rhs)
  | .succ lhs => do
    let (name, indices) ← t.target? lhs
    return .step false name indices
  | .pred lhs => do
    let (name, indices) ← t.target? lhs
    return .step true name indices
  | .callStmt name args => do return .call name (← args.mapM t.expr?)
  | .nop => some .nop
  | _ => none

/-! ### Blocks -/

def isCallable (t : Tree) (id : NodeId) : Bool :=
  match t.kind? id with
  | some (.definition d) => d.body?.isSome
  | _ => false

/-- Whether a node is a definition that an item of a block makes. -/
def isOwn (t : Tree) (id : NodeId) : Bool :=
  match t.kind? id with
  | some (.definition d) => d.isVariable || d.body?.isSome
  | _ => false

/-- The items of a block in the order they were made. -/
def items (t : Tree) (stmts : List NodeId) (table : NameTable) : List NodeId :=
  (stmts ++ (table.entries.map Prod.snd).filter t.isCallable).mergeSort

def blockOf (t : Tree) (stmt : NodeId → Option (Stmt Expr)) (stmts : List NodeId)
    (table : NameTable) : Option (List String × List (Stmt Expr)) := do
  let body ← (t.items stmts table).mapM stmt
  let given := (table.entries.filter fun e => !t.isOwn e.2).map Prod.fst
  if table.entries.map Prod.fst = given ++ Stmt.declares body then some (given, body) else none

def blockAt (t : Tree) : Nat → BlockReader
  | 0, _ => none
  | depth + 1, id =>
    match t.kind? id with
    | some (.block stmts table) =>
      t.blockOf (fun i => (t.kind? i).bind (t.stmtOf (t.blockAt depth))) stmts table
    | _ => none

def block? (t : Tree) (id : NodeId) : Option (List String × List (Stmt Expr)) :=
  t.blockAt (id + 1) id

def stmt? (t : Tree) (id : NodeId) : Option (Stmt Expr) :=
  (t.kind? id).bind (t.stmtOf t.block?)

/-- The names that the root was given, and the program of a tree. -/
def program? (t : Tree) : Option (List String × List (Stmt Expr)) := t.block? t.root

section Congruence

variable {block other : BlockReader} {id : NodeId}

theorem body_congr (h : block id = other id) (given : List String) :
    block.body given id = other.body given id := by
  rw [BlockReader.body, BlockReader.body, h]

theorem WellFormed.branch?_congr (h : t.WellFormed) (hb : ∀ b < id, block b = other b) :
    t.branch? block id = t.branch? other id := by
  rw [branch?, branch?]
  split
  · rename_i cond body hk
    rw [body_congr (hb body (h.child_lt hk (by simp [NodeKind.children])))]
  · rfl

theorem WellFormed.case?_congr (h : t.WellFormed) (hb : ∀ b < id, block b = other b) :
    t.case? block id = t.case? other id := by
  rw [case?, case?]
  split
  · rename_i first more body hk
    rw [body_congr (hb body (h.child_lt hk (by simp [NodeKind.children])))]
  · rfl

/-- Only blocks with smaller numbers matter for a statement. -/
theorem WellFormed.stmtOf_congr (h : t.WellFormed) {k : NodeKind} (hk : t.kind? id = some k)
    (hb : ∀ b < id, block b = other b) : t.stmtOf block k = t.stmtOf other k := by
  have hBody : ∀ given, ∀ b ∈ k.children, block.body given b = other.body given b :=
    fun given b hc => body_congr (hb b (h.child_lt hk hc)) given
  have hLast : ∀ last : Option NodeId, (∀ b ∈ last, b ∈ k.children) →
      last.mapM (block.body []) = last.mapM (other.body []) := by
    intro last hl
    cases last with
    | none => rfl
    | some b => rw [Option.mapM_some, Option.mapM_some, hBody [] b (hl b rfl)]
  cases k with
  | loop body | localBlock body | times _ body | whileLoop _ body =>
    simp only [stmtOf, hBody [] body (by simp [NodeKind.children])]
  | ascent bounds body | descent bounds body =>
    simp only [stmtOf, rangeLoopOf,
      hb body (h.child_lt hk (by simp [NodeKind.children]))]
  | ifElse cond body branches last =>
    have hBranches : branches.mapM (t.branch? block) = branches.mapM (t.branch? other) := by
      refine mapM_congr_of_mem fun b hm => h.branch?_congr fun c hc => hb c ?_
      exact Nat.lt_trans hc (h.child_lt hk (by simp [NodeKind.children, hm]))
    simp only [stmtOf, hBody [] body (by simp [NodeKind.children]), hBranches,
      hLast last (by simp +contextual [NodeKind.children])]
  | alternative cond cases others =>
    have hCases : cases.mapM (t.case? block) = cases.mapM (t.case? other) := by
      refine mapM_congr_of_mem fun b hm => h.case?_congr fun c hc => hb c ?_
      exact Nat.lt_trans hc (h.child_lt hk (by simp [NodeKind.children, hm]))
    simp only [stmtOf, hCases, hLast others (by simp +contextual [NodeKind.children])]
  | definition d =>
    cases d with
    | func name params body | task name params body =>
      simp only [stmtOf, callableOf, hBody _ body (by simp [NodeKind.children, Definition.body?])]
    | sub name body | entryRoutine name body =>
      simp only [stmtOf, hBody [] body (by simp [NodeKind.children, Definition.body?])]
    | _ => rfl
  | _ => rfl

end Congruence

/-- The items of a block have smaller numbers. -/
theorem WellFormed.item_lt (h : t.WellFormed) {id i : NodeId} {stmts : List NodeId}
    {table : NameTable} (hk : t.kind? id = some (.block stmts table))
    (hi : i ∈ t.items stmts table) : i < id := by
  rw [items, List.mem_mergeSort, List.mem_append] at hi
  rcases hi with hi | hi
  · exact h.child_lt hk hi
  · obtain ⟨e, he, rfl⟩ := List.mem_map.mp (List.mem_filter.mp hi).1
    exact (h.fits id _ hk).entry_lt e he

theorem blockOf_congr {stmt other : NodeId → Option (Stmt Expr)} {stmts : List NodeId}
    {table : NameTable} (h : ∀ i ∈ t.items stmts table, stmt i = other i) :
    t.blockOf stmt stmts table = t.blockOf other stmts table := by
  rw [blockOf, blockOf, mapM_congr_of_mem h]

theorem WellFormed.blockAt_eq (h : t.WellFormed) {depth other : Nat} {id : NodeId} :
    id < depth → id < other → t.blockAt depth id = t.blockAt other id := by
  refine eq_of_smaller (f := t.blockAt) fun d e id hSmaller => ?_
  rw [blockAt, blockAt]
  split
  · rename_i stmts table hk
    refine blockOf_congr fun i hi => ?_
    cases hki : t.kind? i with
    | none => rfl
    | some k =>
      exact h.stmtOf_congr hki fun b hb => hSmaller b (Nat.lt_trans hb (h.item_lt hk hi))
  · rfl

/-- What is read of a block follows from the statements of its items. -/
theorem WellFormed.block?_eq (h : t.WellFormed) {id : NodeId} {stmts : List NodeId}
    {table : NameTable} (hk : t.kind? id = some (.block stmts table)) :
    t.block? id = t.blockOf t.stmt? stmts table := by
  rw [block?, blockAt, hk]
  refine blockOf_congr fun i hi => ?_
  rw [stmt?]
  cases hki : t.kind? i with
  | none => rfl
  | some k =>
    refine h.stmtOf_congr hki fun b hb => ?_
    exact h.blockAt_eq (Nat.lt_trans hb (h.item_lt hk hi)) (Nat.lt_succ_self b)

/-- Items that are listed in the order they were made are those of the block. -/
theorem items_eq {stmts xs : List NodeId} {table : NameTable} (hxs : xs.Pairwise (· < ·))
    (h : (stmts ++ (table.entries.map Prod.snd).filter t.isCallable).Perm xs) :
    t.items stmts table = xs := by
  have hle : xs.Pairwise (· ≤ ·) := hxs.imp Nat.le_of_lt
  rw [items]
  refine List.Perm.eq_of_pairwise (fun _ _ _ _ => Nat.le_antisymm) ?_ hle
    ((List.mergeSort_perm _ _).trans h)
  refine (List.pairwise_mergeSort ?_ ?_ _).imp of_decide_eq_true
  · intro a b c hab hbc
    exact decide_eq_true (Nat.le_trans (of_decide_eq_true hab) (of_decide_eq_true hbc))
  · intro a b
    simpa using Nat.le_total a b

end Tree

end StageScript

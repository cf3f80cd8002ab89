import StageScript.Parse.Expr
import StageScript.Text.Blank
import StageScript.Text.Layout

/-!
# Statements

A statement is told by its first token.  Each rule takes the parsers of the
expressions and blocks inside it; `blockAt` closes the circle with the number of
levels that are left.  A rule gives no node when the statement only declares.
-/

namespace StageScript.Parse

/-- The parsers of what stands inside a statement. -/
structure Inner where
  expr : ExprParser
  /-- A block that declares the given definitions before its first statement. -/
  block : List NodeId → Parse NodeId

/-- An expression in parentheses. -/
def condition (inner : Inner) : Parse NodeId := do
  expectSymbol .openParen
  let cond ← inner.expr .lowest
  expectSymbol .closeParen
  return cond

/-! ### Declarations -/

/-- A variable, with or without its first value. -/
def varDecl (inner : Inner) : Parse NodeId := do
  let first ← advance
  let token ← expectName "during variable declaration"
  let id ← declare (.var token.value) token.span
  if ← eat (.symbol .assign) then
    let rhs ← inner.expr .lowest
    expectSymbol .semicolon
    pushFrom first.span.start (.varInit token.value rhs)
  else
    expectSymbol .semicolon
    return id

/-- A parameter, with or without the word for a declaration. -/
def param : Parse NodeId := do
  let _ ← eat (.keyword .letWord)
  let token ← expectName "in parameter list"
  push (.definition (.param token.value)) token.span

/-- Parameters in parentheses, if there are any. -/
def params : Parse (List NodeId) := do
  if ← eat (.symbol .openParen) then
    commaList .closeParen param
  else
    return []

/-- A function or a task.  The body of a function declares its result. -/
def callableDef (inner : Inner) : Parse Unit := do
  let first ← advance
  let token ← expectName "after function or task"
  let ids ← params
  let d ←
    if first.kind = .keyword .functionWord then
      let result ← push (.definition .result) first.span
      let body ← inner.block (ids ++ [result])
      pure (Definition.func token.value ids body)
    else
      let body ← inner.block ids
      pure (Definition.task token.value ids body)
  let _ ← declare d (← look (·.spanFrom first.span.start))

def subDef (inner : Inner) : Parse Unit := do
  let first ← advance
  let token ← expectName "after sub"
  let body ← inner.block []
  let _ ← declare (.sub token.value body) (← look (·.spanFrom first.span.start))

/-- A routine that the host starts. -/
def entryRoutine (inner : Inner) : Parse Unit := do
  let first ← advance
  let body ← inner.block []
  let _ ← declare (.entryRoutine first.value body) (← look (·.spanFrom first.span.start))

/-- The name and the parameters of a header: a list in brackets, parted by commas, without
blanks around the parameters and without empty ones. -/
def headerKind (text : List Char) : NodeKind :=
  let name := text.takeWhile (· ≠ '[')
  let list := Text.dropWhileRight (· = ']') ((text.dropWhile (· ≠ '[')).drop 1)
  let params := ((Text.splitOn ',' list).map Text.trim).filter (· ≠ [])
  .header (String.ofList name) (params.map String.ofList)

def header : Parse NodeId := do
  let token ← advance
  push (headerKind token.value.toList) token.span

/-! ### Control -/

/-- The branches after the first one, and the last one if it has no condition. -/
def elseBranches (inner : Inner) : Nat → Parse (List NodeId × Option NodeId)
  | 0 => pure ([], none)
  | n + 1 => do
    if ← atKind (.keyword .elseWord) then
      let first ← advance
      if ← eat (.keyword .ifWord) then
        let cond ← condition inner
        let body ← inner.block []
        let branch ← pushFrom first.span.start (.elseIf cond body)
        let (branches, last) ← elseBranches inner n
        return (branch :: branches, last)
      else
        let body ← inner.block []
        return ([], some body)
    else
      return ([], none)

def ifElse (inner : Inner) : Parse NodeId := do
  let first ← advance
  let cond ← condition inner
  let body ← inner.block []
  let (branches, last) ← elseBranches inner (← look Parser.rounds)
  pushFrom first.span.start (.ifElse cond body branches last)

/-- A loop without end, or with a number of rounds in parentheses. -/
def loop (inner : Inner) : Parse NodeId := do
  let first ← advance
  if ← atSymbol .openParen then
    let count ← condition inner
    let body ← inner.block []
    pushFrom first.span.start (.times count body)
  else
    let body ← inner.block []
    pushFrom first.span.start (.loop body)

def times (inner : Inner) : Parse NodeId := do
  let first ← advance
  let count ← condition inner
  let _ ← eat (.keyword .loopWord)
  let body ← inner.block []
  pushFrom first.span.start (.times count body)

def whileLoop (inner : Inner) : Parse NodeId := do
  let first ← advance
  let cond ← condition inner
  let body ← inner.block []
  pushFrom first.span.start (.whileLoop cond body)

/-- A loop over a range, upward or downward.  Its body declares the loop variable. -/
def ascent (inner : Inner) : Parse NodeId := do
  let first ← advance
  expectSymbol .openParen
  let _ ← eat (.keyword .letWord)
  let token ← expectName "as loop variable"
  let loopVar ← push (.definition (.loopVar token.value)) token.span
  let _ ← expect (.keyword .inWord)
  let rangeStart ← look Parser.position
  let start ← inner.expr .lowest
  expectSymbol .dots
  let stop ← inner.expr .lowest
  let bounds ← pushFrom rangeStart (.range start stop)
  expectSymbol .closeParen
  let body ← inner.block [loopVar]
  pushFrom first.span.start
    (if first.kind = .keyword .descentWord then .descent bounds body else .ascent bounds body)

/-- The cases of an alternative, each with at least one value. -/
def caseBranches (inner : Inner) : Nat → Parse (List NodeId)
  | 0 => pure []
  | n + 1 => do
    if ← atKind (.keyword .caseWord) then
      let first ← advance
      let values ← callArgs inner.expr
      if values.isEmpty then unexpected "expected at least one case value"
      let body ← inner.block []
      let branch ← pushFrom first.span.start (.caseOf values body)
      return branch :: (← caseBranches inner n)
    else
      return []

def alternative (inner : Inner) : Parse NodeId := do
  let first ← advance
  let cond ← condition inner
  let branches ← caseBranches inner (← look Parser.rounds)
  let others ←
    if ← eat (.keyword .othersWord) then
      let body ← inner.block []
      pure (some body)
    else
      pure none
  pushFrom first.span.start (.alternative cond branches others)

def localBlock (inner : Inner) : Parse NodeId := do
  let first ← advance
  let body ← inner.block []
  pushFrom first.span.start (.localBlock body)

def returnStmt (inner : Inner) : Parse NodeId := do
  let first ← advance
  if ← eat (.symbol .semicolon) then
    pushFrom first.span.start .returnVoid
  else
    let value ← inner.expr .lowest
    expectSymbol .semicolon
    pushFrom first.span.start (.returnValue value)

/-- A word by itself. -/
def wordStmt (kind : NodeKind) : Parse NodeId := do
  let first ← advance
  expectSymbol .semicolon
  pushFrom first.span.start kind

def nop : Parse NodeId := do
  let token ← advance
  push .nop token.span

/-! ### Assignments and calls -/

/-- Indices in brackets, any number of them. -/
def indices (expr : ExprParser) : Nat → Parse (List NodeId)
  | 0 => pure []
  | n + 1 => do
    if ← eat (.symbol .openBracket) then
      let id ← expr .lowest
      expectSymbol .closeBracket
      return id :: (← indices expr n)
    else
      return []

/-- What an assignment does with its target, told by the operator. -/
def update (expr : ExprParser) (lhs : NodeId) (operator : Token) : Parse NodeKind :=
  match operator.kind with
  | .symbol .plusPlus => pure (.succ lhs)
  | .symbol .minusMinus => pure (.pred lhs)
  | kind =>
    match AssignOp.ofKind? kind with
    | some op => do
      let rhs ← expr .lowest
      return .assign op lhs rhs
    | none =>
      fail ⟨.unexpectedBecause operator.value "expected assignment or call",
        operator.span.start⟩

/-- A statement that starts with a name. -/
def assignOrCall (inner : Inner) : Parse NodeId := do
  let token ← advance
  let start := token.span.start
  if ← atSymbol .openParen then
    let args ← callArgs inner.expr
    expectSymbol .semicolon
    pushFrom start (.callStmt token.value args)
  else
    let ids ← indices inner.expr (← look Parser.rounds)
    let called ← if ids.isEmpty then eat (.symbol .semicolon) else pure false
    if called then
      pushFrom start (.callStmt token.value [])
    else
      let lhs ← pushFrom start (.target token.value ids)
      let operator ← advance
      let kind ← update inner.expr lhs operator
      expectSymbol .semicolon
      pushFrom start kind

/-! ### Whole statements and blocks -/

/-- A statement of a form; a definition of a callable gives no node. -/
def form (inner : Inner) : Form → Parse (Option NodeId)
  | .varDecl => some <$> varDecl inner
  | .callableDef => (fun _ => none) <$> callableDef inner
  | .subDef => (fun _ => none) <$> subDef inner
  | .entryRoutine => (fun _ => none) <$> entryRoutine inner
  | .header => some <$> header
  | .ifElse => some <$> ifElse inner
  | .loop => some <$> loop inner
  | .times => some <$> times inner
  | .whileLoop => some <$> whileLoop inner
  | .ascent => some <$> ascent inner
  | .alternative => some <$> alternative inner
  | .localBlock => some <$> localBlock inner
  | .returnStmt => some <$> returnStmt inner
  | .yieldStmt => some <$> wordStmt .yield
  | .breakStmt => some <$> wordStmt .breakLoop
  | .assignOrCall => some <$> assignOrCall inner
  | .nop => some <$> nop

/-- A statement whose parts are parsed by `inner`. -/
def stmtWith (inner : Inner) : Parse (Option NodeId) := do
  match ← look fun p => p.form? p.kind with
  | none => unexpected "expected a statement"
  | some kind => form inner kind

/-- The statements up to the end of the tokens, or up to a token where `stop` holds. -/
def stmts (inner : Inner) (stop : Parser → Bool) : Nat → Parse (List NodeId)
  | 0 => pure []
  | n + 1 => do
    if ← look fun p => p.hasTokens && !stop p then
      let stmt ← stmtWith inner
      let rest ← stmts inner stop n
      return stmt.toList ++ rest
    else
      return []

/-- A block whose statements are parsed by `inner`. -/
def blockWith (inner : Inner) (decls : List NodeId) : Parse NodeId := do
  let first ← expect (.symbol .openCurly)
  enter
  pushScope
  decls.forM fun id => do
    let _ ← declareExisting id
  let ids ← stmts inner (fun p => p.kind = .symbol .closeCurly) (← look Parser.rounds)
  expectSymbol .closeCurly
  let table ← popScope
  leave
  pushFrom first.span.start (.block ids table)

/-- A block that has `levels` levels of nesting left. -/
def blockAt : Nat → List NodeId → Parse NodeId
  | 0, _ => do
    expectSymbol .openCurly
    tooDeep
  | levels + 1, decls => blockWith ⟨exprAt levels, blockAt levels⟩ decls

/-- The parsers of what stands inside a parser's current place. -/
def innerOf (p : Parser) : Inner :=
  ⟨exprAt (maxNesting - p.nesting), blockAt (maxNesting - p.nesting)⟩

/-- Parses with the parsers of what stands inside the current place. -/
def here {α : Type} (rule : Inner → Parse α) : Parse α := fun p => rule (innerOf p) p

/-- An expression at the current place. -/
def expr (power : Power) : Parse NodeId := here fun inner => inner.expr power

/-- A block at the current place. -/
def block (decls : List NodeId) : Parse NodeId := here fun inner => inner.block decls

/-- A statement at the current place. -/
def stmt : Parse (Option NodeId) := here stmtWith

end StageScript.Parse

import StageScript.Number.Numeral
import StageScript.Parse.Reply

/-!
# Expressions

An expression starts with a head and goes on with operators that bind tighter than
the place it stands in.  Each rule takes the parser of the expressions inside it,
which stand one level deeper; `exprAt` closes the circle with the number of levels
that are left.
-/

namespace StageScript.Parse

/-- A parser of expressions whose operators bind tighter than the given power. -/
abbrev ExprParser := Power → Parse NodeId

/-- The rounds of `commaList`. -/
def commaItems (close : TokenKind) (item : Parse NodeId) : Nat → Parse (List NodeId)
  | 0 => pure []
  | n + 1 => do
    if ← atKind close then return []
    let id ← item
    if ← eat (.symbol .comma) then
      return id :: (← commaItems close item n)
    return [id]

/-- Items up to `close`, with commas between them and at most one after the last. -/
def commaList (close : Symbol) (item : Parse NodeId) : Parse (List NodeId) := do
  let items ← commaItems (.symbol close) item (← look Parser.rounds)
  expectSymbol close
  return items

/-! ### Heads -/

/-- The node of a literal token. -/
def literalKind (token : Token) : Except Cause NodeKind :=
  match token.kind with
  | .number =>
    match Numeral.parse? token.value with
    | some value => .ok (.num value)
    | none => .error (.badNumber token.value)
  | .char =>
    match token.value.toList with
    | c :: _ => .ok (.char c)
    | [] => .error (.unexpectedBecause token.value "empty character literal")
  | .string => .ok (.str token.value)
  | _ => .error (.unexpected token.value)

def literal : Parse NodeId := do
  let token ← advance
  match literalKind token with
  | .ok kind => push kind token.span
  | .error cause => fail ⟨cause, token.span.start⟩

/-- Arguments in parentheses. -/
def callArgs (expr : ExprParser) : Parse (List NodeId) := do
  expectSymbol .openParen
  commaList .closeParen (expr .lowest)

/-- A name, or a call if arguments follow. -/
def name (expr : ExprParser) : Parse NodeId := do
  let token ← advance
  if ← atSymbol .openParen then
    let args ← callArgs expr
    pushFrom token.span.start (.call token.value args)
  else
    push (.ref token.value) token.span

/-- Elements in brackets. -/
def arrayLiteral (expr : ExprParser) : Parse NodeId := do
  let token ← advance
  let elems ← commaList .closeBracket (expr .lowest)
  pushFrom token.span.start (.array elems)

/-- An expression in parentheses, which make no node. -/
def group (expr : ExprParser) : Parse NodeId := do
  let _ ← advance
  let inner ← expr .lowest
  expectSymbol .closeParen
  return inner

/-- An expression between bars in parentheses, its absolute value. -/
def absolute (expr : ExprParser) : Parse NodeId := do
  let token ← advance
  let operand ← expr .lowest
  expectSymbol .closeAbs
  pushFrom token.span.start (.unary .abs operand)

/-- A sign before its operand. -/
def sign (expr : ExprParser) : Parse NodeId := do
  let token ← advance
  let op := if token.kind = .symbol .bang then UnaryOp.not else UnaryOp.neg
  let operand ← expr .unary
  pushFrom token.span.start (.unary op operand)

def head (expr : ExprParser) : Head → Parse NodeId
  | .literal => literal
  | .name => name expr
  | .array => arrayLiteral expr
  | .group => group expr
  | .absolute => absolute expr
  | .sign => sign expr

/-! ### Tails -/

/-- An operator between two operands. -/
def pushBinary (op : BinaryOp) (left right : NodeId) : Parse NodeId := do
  push (.binary op left right) (← look (·.spanBetween left right))

/-- An operator and its right operand, in which only tighter operators stand. -/
def binary (expr : ExprParser) (left : NodeId) (power : Power) : Parse NodeId := do
  let token ← advance
  match BinaryOp.ofKind? token.kind with
  | some op =>
    let right ← expr power
    pushBinary op left right
  | none => fail ⟨.unexpected token.value, token.span.start⟩

/-- A power, whose exponent can be a power or have a sign. -/
def exponent (expr : ExprParser) (left : NodeId) : Parse NodeId := do
  let _ ← advance
  let right ← expr .unary
  pushBinary .pow left right

/-- Adds a node from the start of `left` to the end of the last consumed token. -/
def pushAfter (left right : NodeId) (kind : NodeKind) : Parse NodeId := do
  let span ← look (·.spanBetween left right)
  pushFrom span.start kind

/-- An index or a range in brackets. -/
def index (expr : ExprParser) (left : NodeId) : Parse NodeId := do
  let _ ← advance
  let start ← expr .lowest
  if ← eat (.symbol .dots) then
    let stop ← expr .lowest
    let bounds ← push (.range start stop) (← look (·.spanBetween start stop))
    expectSymbol .closeBracket
    pushAfter left bounds (.slice left bounds)
  else
    expectSymbol .closeBracket
    pushAfter left start (.element left start)

def tail (expr : ExprParser) (left : NodeId) (power : Power) : Tail → Parse NodeId
  | .binary => binary expr left power
  | .exponent => exponent expr left
  | .index => index expr left

/-- The rounds that extend `left` by operators that bind tighter than `power`. -/
def extend (expr : ExprParser) (power : Power) : Nat → NodeId → Parse NodeId
  | 0, left => pure left
  | n + 1, left => do
    let tighter ← look Parser.power
    if tighter.rank ≤ power.rank then return left
    match ← look fun p => p.tail? p.kind with
    | none => unexpected "expected an operator"
    | some kind =>
      let left ← tail expr left tighter kind
      extend expr power n left

/-! ### Whole expressions -/

/-- An expression whose parts are parsed by `expr`. -/
def exprWith (expr : ExprParser) (power : Power) : Parse NodeId := do
  match ← look fun p => p.head? p.kind with
  | none => unexpected "expected an expression"
  | some kind =>
    let left ← head expr kind
    extend expr power (← look Parser.rounds) left

/-- An expression that has `levels` levels of nesting left. -/
def exprAt : Nat → ExprParser
  | 0, _ => tooDeep
  | levels + 1, power => nested (exprWith (exprAt levels) power)

end StageScript.Parse

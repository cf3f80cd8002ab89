import StageScript.Token.Kind

/-!
# What starts and continues a construct

The kind of the next token decides what can be parsed: how an expression starts
(`Head`), how it goes on (`Tail`) and how tightly (`Power`), and what statement starts
(`Form`).  Each has a table of its own.
-/

namespace StageScript

/-- How tightly an operator binds, the weakest first. -/
inductive Power where
  | lowest
  | logicalOr | logicalAnd | relational | additive | multiplicative | unary | exponent | index
  | primary
  deriving DecidableEq, Inhabited

namespace Power

/-- The place of a power in the order. -/
def rank : Power → Nat
  | lowest => 0
  | logicalOr => 1
  | logicalAnd => 2
  | relational => 3
  | additive => 4
  | multiplicative => 5
  | unary => 6
  | exponent => 7
  | index => 8
  | primary => 9

/-- The power that binds a token to what precedes it. -/
def ofKind? : TokenKind → Option Power
  | .symbol .bars => some logicalOr
  | .symbol .ampersands => some logicalAnd
  | .symbol .less => some relational
  | .symbol .lessEquals => some relational
  | .symbol .greater => some relational
  | .symbol .greaterEquals => some relational
  | .symbol .equals => some relational
  | .symbol .notEquals => some relational
  | .symbol .plus => some additive
  | .symbol .dash => some additive
  | .symbol .tilde => some additive
  | .symbol .star => some multiplicative
  | .symbol .slash => some multiplicative
  | .symbol .percent => some multiplicative
  | .symbol .caret => some exponent
  | .symbol .openBracket => some index
  | _ => none

end Power

/-- How an expression starts. -/
inductive Head where
  | literal | name | array | group | absolute | sign
  deriving DecidableEq, Inhabited

namespace Head

def ofKind? : TokenKind → Option Head
  | .number => some literal
  | .char => some literal
  | .string => some literal
  | .identifier => some name
  | .symbol .openBracket => some array
  | .symbol .openParen => some group
  | .symbol .openAbs => some absolute
  | .symbol .dash => some sign
  | .symbol .bang => some sign
  | _ => none

end Head

/-- How an expression goes on. -/
inductive Tail where
  | binary | exponent | index
  deriving DecidableEq, Inhabited

namespace Tail

def ofKind? : TokenKind → Option Tail
  | .symbol .bars => some binary
  | .symbol .ampersands => some binary
  | .symbol .less => some binary
  | .symbol .lessEquals => some binary
  | .symbol .greater => some binary
  | .symbol .greaterEquals => some binary
  | .symbol .equals => some binary
  | .symbol .notEquals => some binary
  | .symbol .plus => some binary
  | .symbol .dash => some binary
  | .symbol .tilde => some binary
  | .symbol .star => some binary
  | .symbol .slash => some binary
  | .symbol .percent => some binary
  | .symbol .caret => some exponent
  | .symbol .openBracket => some index
  | _ => none

end Tail

/-- What statement starts. -/
inductive Form where
  | varDecl | callableDef | subDef | entryRoutine | header
  | ifElse | loop | times | whileLoop | ascent | alternative | localBlock
  | returnStmt | yieldStmt | breakStmt
  | assignOrCall | nop
  deriving DecidableEq, Inhabited

namespace Form

def ofKind? : TokenKind → Option Form
  | .keyword .letWord => some varDecl
  | .keyword .functionWord => some callableDef
  | .keyword .taskWord => some callableDef
  | .keyword .subWord => some subDef
  | .entryRoutine => some entryRoutine
  | .header => some header
  | .keyword .ifWord => some ifElse
  | .keyword .loopWord => some loop
  | .keyword .timesWord => some times
  | .keyword .whileWord => some whileLoop
  | .keyword .ascentWord => some ascent
  | .keyword .descentWord => some ascent
  | .keyword .alternativeWord => some alternative
  | .keyword .localWord => some localBlock
  | .keyword .returnWord => some returnStmt
  | .keyword .yieldWord => some yieldStmt
  | .keyword .breakWord => some breakStmt
  | .identifier => some assignOrCall
  | .symbol .semicolon => some nop
  | _ => none

end Form

end StageScript

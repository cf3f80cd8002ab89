import StageScript.Token.Kind

/-!
# Operators

The operators of expressions and of assignments, and the symbols they are written
with.
-/

namespace StageScript

inductive UnaryOp where
  | neg | not | abs
  deriving DecidableEq, Inhabited

inductive BinaryOp where
  | add | sub | mul | div | rem | pow
  | lt | gt | le | ge | eq | ne
  | and | or
  | cat
  deriving DecidableEq, Inhabited

/-- What decides the type of an operation. -/
inductive OperatorClass where
  /-- Arithmetic on numbers, or element by element on arrays. -/
  | arithmeticOrArray
  /-- Arithmetic on numbers alone. -/
  | arithmetic
  | compare
  /-- The value is one of the operands. -/
  | logical
  | concat
  deriving DecidableEq, Inhabited

namespace BinaryOp

def all : List BinaryOp :=
  [add, sub, mul, div, rem, pow, lt, gt, le, ge, eq, ne, and, or, cat]

def symbol : BinaryOp → Symbol
  | add => .plus
  | sub => .dash
  | mul => .star
  | div => .slash
  | rem => .percent
  | pow => .caret
  | lt => .less
  | gt => .greater
  | le => .lessEquals
  | ge => .greaterEquals
  | eq => .equals
  | ne => .notEquals
  | and => .ampersands
  | or => .bars
  | cat => .tilde

/-- The operator that a kind of token stands for. -/
def ofKind? (kind : TokenKind) : Option BinaryOp := all.find? fun op => kind = .symbol op.symbol

def operatorClass : BinaryOp → OperatorClass
  | add | sub => .arithmeticOrArray
  | mul | div | rem | pow => .arithmetic
  | lt | gt | le | ge | eq | ne => .compare
  | and | or => .logical
  | cat => .concat

end BinaryOp

/-- An assignment, or an operation on the target and the assigned value. -/
inductive AssignOp where
  | assign
  | add | sub | mul | div | rem | pow
  | cat
  deriving DecidableEq, Inhabited

namespace AssignOp

def all : List AssignOp := [assign, add, sub, mul, div, rem, pow, cat]

def symbol : AssignOp → Symbol
  | assign => .assign
  | add => .plusEquals
  | sub => .minusEquals
  | mul => .starEquals
  | div => .slashEquals
  | rem => .percentEquals
  | pow => .caretEquals
  | cat => .tildeEquals

/-- The operator that a kind of token stands for. -/
def ofKind? (kind : TokenKind) : Option AssignOp := all.find? fun op => kind = .symbol op.symbol

end AssignOp

end StageScript

import StageScript.Number.Binary64
import StageScript.Operator
import StageScript.Scope.Table
import StageScript.Source.Position

/-!
# Nodes

A node of the tree of a script is an expression, a statement, a part of one, or a
definition.  Nodes name each other by number.
-/

namespace StageScript

inductive NodeKind where
  -- Expressions.
  | num (value : Binary64)
  | char (value : Char)
  | str (value : String)
  | array (elems : List NodeId)
  | unary (op : UnaryOp) (operand : NodeId)
  | binary (op : BinaryOp) (lhs rhs : NodeId)
  /-- A name by itself, which reads a variable or calls without arguments. -/
  | ref (name : String)
  | call (name : String) (args : List NodeId)
  | element (base index : NodeId)
  | range (start stop : NodeId)
  | slice (base bounds : NodeId)
  -- Statements, and the parts of statements.
  | nop
  /-- What is assigned to. -/
  | target (name : String) (indices : List NodeId)
  | assign (op : AssignOp) (lhs rhs : NodeId)
  | callStmt (name : String) (args : List NodeId)
  | returnValue (value : NodeId)
  | returnVoid
  | yield
  | breakLoop
  | succ (lhs : NodeId)
  | pred (lhs : NodeId)
  | varInit (name : String) (rhs : NodeId)
  | block (stmts : List NodeId) (table : NameTable)
  | localBlock (body : NodeId)
  | loop (body : NodeId)
  | times (count body : NodeId)
  | whileLoop (cond body : NodeId)
  | ascent (bounds body : NodeId)
  | descent (bounds body : NodeId)
  | elseIf (cond body : NodeId)
  | ifElse (cond body : NodeId) (elseIfs : List NodeId) (elseBody : Option NodeId)
  | caseOf (values : List NodeId) (body : NodeId)
  | alternative (cond : NodeId) (cases : List NodeId) (others : Option NodeId)
  | header (name : String) (params : List String)
  | definition (d : Definition)
  deriving DecidableEq, Inhabited

namespace NodeKind

/-- The nodes that a node is made of, in the order of the source.  A definition has its body;
the names of a block's table are not among its parts. -/
def children : NodeKind → List NodeId
  | num _ => []
  | char _ => []
  | str _ => []
  | array elems => elems
  | unary _ operand => [operand]
  | binary _ lhs rhs => [lhs, rhs]
  | ref _ => []
  | call _ args => args
  | element base index => [base, index]
  | range start stop => [start, stop]
  | slice base bounds => [base, bounds]
  | nop => []
  | target _ indices => indices
  | assign _ lhs rhs => [lhs, rhs]
  | callStmt _ args => args
  | returnValue value => [value]
  | returnVoid => []
  | yield => []
  | breakLoop => []
  | succ lhs => [lhs]
  | pred lhs => [lhs]
  | varInit _ rhs => [rhs]
  | block stmts _ => stmts
  | localBlock body => [body]
  | loop body => [body]
  | times count body => [count, body]
  | whileLoop cond body => [cond, body]
  | ascent bounds body => [bounds, body]
  | descent bounds body => [bounds, body]
  | elseIf cond body => [cond, body]
  | ifElse cond body elseIfs elseBody => cond :: body :: (elseIfs ++ elseBody.toList)
  | caseOf values body => values ++ [body]
  | alternative cond cases others => cond :: (cases ++ others.toList)
  | header _ _ => []
  | definition d => d.body?.toList

end NodeKind

structure Node where
  kind : NodeKind
  span : Span
  deriving DecidableEq, Inhabited

end StageScript

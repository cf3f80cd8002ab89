import StageScript.Diagnostic.Basic
import StageScript.Tree.Node

/-!
# Trees

A tree keeps its nodes by number, in the order they were made, and knows which one
is its root.  Looking up a node that is not there, or not of the kind that has to
stand there, says that the tree is malformed.
-/

namespace StageScript

structure Tree where
  nodes : Array Node
  root : NodeId
  deriving DecidableEq, Inhabited

namespace Tree

def empty : Tree := ⟨#[], 0⟩

def size (t : Tree) : Nat := t.nodes.size

/-- The number of the next node. -/
def next (t : Tree) : NodeId := t.nodes.size

/-- The tree with one more node, numbered `t.next`. -/
def push (t : Tree) (node : Node) : Tree := { t with nodes := t.nodes.push node }

def get? (t : Tree) (id : NodeId) : Option Node := t.nodes[id]?

/-- The fault of a tree without the node `id`. -/
def missingNode (id : NodeId) : Diagnostic :=
  ⟨.malformedTree s!"node #{id} does not exist", Position.nowhere⟩

/-- The fault of a node `id` that is not what has to stand there. -/
def misplacedNode (id : NodeId) (node : Node) (wanted : String) : Diagnostic :=
  ⟨.malformedTree s!"node #{id} is not a {wanted}", node.span.start⟩

/-- The fault of a node that is a part of itself. -/
def cyclicNode (id : NodeId) : Diagnostic :=
  ⟨.malformedTree s!"node #{id} contains itself", Position.nowhere⟩

def node (t : Tree) (id : NodeId) : Except Diagnostic Node :=
  match t.get? id with
  | some node => .ok node
  | none => .error (missingNode id)

def definition (t : Tree) (id : NodeId) : Except Diagnostic Definition := do
  let node ← t.node id
  match node.kind with
  | .definition d => .ok d
  | _ => .error (misplacedNode id node "definition")

/-- The statements and the table of a block. -/
def block (t : Tree) (id : NodeId) : Except Diagnostic (List NodeId × NameTable) := do
  let node ← t.node id
  match node.kind with
  | .block stmts table => .ok (stmts, table)
  | _ => .error (misplacedNode id node "block")

/-- The nodes with their numbers. -/
def numbered (t : Tree) : List (NodeId × Node) :=
  t.nodes.toList.zipIdx.map fun (node, id) => (id, node)

/-- The definitions of the tree with their numbers. -/
def definitions (t : Tree) : List (NodeId × Definition) :=
  t.numbered.filterMap fun (id, node) =>
    match node.kind with
    | .definition d => some (id, d)
    | _ => none

end Tree

end StageScript

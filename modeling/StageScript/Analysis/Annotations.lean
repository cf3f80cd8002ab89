import StageScript.Number.Narrow
import StageScript.Tree.Basic

/-!
# Annotations

What an analysis finds out about the nodes of a tree is kept beside the tree, by
node number.  The table has the size of the tree it was made for.  Its counters have
32 bits and wrap around, as they do where overflow is not checked.
-/

namespace StageScript

/-- What is known of the value of a node. -/
structure Note where
  /-- Computing the value has no effect that can be seen. -/
  effectFree : Bool
  ty : Ty
  /-- The value can be part of a variable, and is copied before it is used anew. -/
  copied : Bool
  deriving DecidableEq, Inhabited

namespace Note

/-- The note of a node of which nothing is known. -/
def unknown : Note := ⟨false, .any, true⟩

end Note

/-- What is known of a definition. -/
structure DefState where
  /-- No use of the definition was met. -/
  unreachable : Bool
  returns : Ty
  reads : Nat
  assigns : Nat
  deriving DecidableEq, Inhabited

/-- The entry of one node. -/
structure Entry where
  note : Note
  /-- How often the node was visited. -/
  visits : Nat
  /-- What is known of the node as a definition, if it is one. -/
  state : Option DefState
  deriving DecidableEq, Inhabited

structure Annotations where
  entries : Array Entry
  deriving DecidableEq, Inhabited

namespace Annotations

/-- The entry of a node before an analysis.  The host declares types and effects itself. -/
def initial (node : Node) : Entry :=
  match node.kind with
  | .definition (.hostFunc _ _ returns pure) =>
    ⟨{ Note.unknown with effectFree := pure }, 0, some ⟨true, returns, 0, 0⟩⟩
  | .definition (.hostConst _ ty) =>
    ⟨{ Note.unknown with effectFree := true }, 0, some ⟨true, ty, 0, 0⟩⟩
  | .definition _ => ⟨Note.unknown, 0, some ⟨true, .any, 0, 0⟩⟩
  | _ => ⟨Note.unknown, 0, none⟩

/-- The table of a tree before an analysis. -/
def ofTree (tree : Tree) : Annotations := ⟨tree.nodes.map initial⟩

def get? (a : Annotations) (id : NodeId) : Option Entry := a.entries[id]?

def note? (a : Annotations) (id : NodeId) : Option Note := (a.get? id).map Entry.note

/-- The note of a node; nothing is known of a node without entry. -/
def note (a : Annotations) (id : NodeId) : Note := (a.note? id).getD Note.unknown

def state? (a : Annotations) (id : NodeId) : Option DefState := (a.get? id).bind Entry.state

def visits (a : Annotations) (id : NodeId) : Nat := ((a.get? id).map Entry.visits).getD 0

def isVisited (a : Annotations) (id : NodeId) : Bool := 0 < a.visits id

def isReachable (a : Annotations) (id : NodeId) : Bool :=
  ((a.state? id).map fun s => !s.unreachable).getD false

/-- Changes the entry of a node, if it has one. -/
def modify (a : Annotations) (id : NodeId) (f : Entry → Entry) : Annotations :=
  ⟨a.entries.modify id f⟩

/-- Counts a visit. -/
def visit (a : Annotations) (id : NodeId) : Annotations :=
  a.modify id fun e => { e with visits := narrow (e.visits + 1) }

/-- The fault of a node without what an analysis has to know of it. -/
def missing (id : NodeId) (what : String) : Diagnostic :=
  ⟨.malformedTree s!"node #{id} has no {what}", Position.nowhere⟩

/-- Changes the note of a node that has to have one. -/
def updateNote (a : Annotations) (id : NodeId) (f : Note → Note) :
    Except Diagnostic Annotations :=
  match a.get? id with
  | some _ => .ok (a.modify id fun e => { e with note := f e.note })
  | none => .error (missing id "annotation")

/-- The state of a definition that has to have one. -/
def state (a : Annotations) (id : NodeId) : Except Diagnostic DefState :=
  match a.state? id with
  | some s => .ok s
  | none => .error (missing id "definition state")

/-- Changes the state of a definition that has to have one. -/
def updateState (a : Annotations) (id : NodeId) (f : DefState → DefState) :
    Except Diagnostic Annotations := do
  let s ← a.state id
  return a.modify id fun e => { e with state := some (f s) }

/-- The variables on a path that is taken which are never read. -/
def unusedVariables (a : Annotations) (tree : Tree) : List NodeId :=
  tree.definitions.filterMap fun (id, d) =>
    match a.state? id with
    | some s =>
      if d.isVariable && (!s.unreachable || a.isVisited id) && s.reads == 0 then some id else none
    | none => none

/-- The callables that are never reached. -/
def unreachableDefinitions (a : Annotations) (tree : Tree) : List NodeId :=
  tree.definitions.filterMap fun (id, d) =>
    match a.state? id with
    | some s => if d.body?.isSome && s.unreachable then some id else none
    | none => none

end Annotations

end StageScript

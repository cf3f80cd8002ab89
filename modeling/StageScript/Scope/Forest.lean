import StageScript.Diagnostic.Basic
import StageScript.Scope.Chain

/-!
# Scopes that share their surroundings

A forest holds numbered scopes, each with a table of its own and, but for the roots,
inside an earlier scope.  A name declared in a scope is seen at once from every scope
inside it.
-/

namespace StageScript

/-- The number of a scope in its forest. -/
abbrev ScopeId := Nat

/-- A table, and the scopes around it, the nearest first. -/
structure Scope where
  table : NameTable
  ancestors : List ScopeId
  deriving DecidableEq, Inhabited

structure Forest where
  scopes : Array Scope
  deriving DecidableEq, Inhabited

namespace Forest

def empty : Forest := ⟨#[]⟩

/-- The scope numbered `id`; a number of no scope gives an empty root. -/
def scope (f : Forest) (id : ScopeId) : Scope := f.scopes[id]?.getD ⟨NameTable.empty, []⟩

/-- The forest with one more scope, inside `parent` or as a root, and the scope's number. -/
def add (f : Forest) (table : NameTable) (parent : Option ScopeId) : Forest × ScopeId :=
  let ancestors :=
    match parent with
    | some p => p :: (f.scope p).ancestors
    | none => []
  (⟨f.scopes.push ⟨table, ancestors⟩⟩, f.scopes.size)

def setTable (f : Forest) (id : ScopeId) (table : NameTable) : Forest :=
  ⟨f.scopes.modify id fun s => { s with table }⟩

/-- The scope itself and those around it, the nearest first. -/
def lineage (f : Forest) (id : ScopeId) : List ScopeId := id :: (f.scope id).ancestors

/-- The definition of a name in the scope's own table. -/
def own? (f : Forest) (id : ScopeId) (name : String) : Option NodeId :=
  (f.scope id).table.find? name

/-- The definition that a name stands for in a scope. -/
def find? (f : Forest) (id : ScopeId) (name : String) : Option NodeId :=
  Chain.find? ((f.lineage id).map fun s => (f.scope s).table) name

/-- The nearest scope that declares a name, and the definition there. -/
def declaring? (f : Forest) (id : ScopeId) (name : String) : Option (ScopeId × NodeId) :=
  (f.lineage id).findSome? fun s => (f.own? s name).map fun d => (s, d)

def parent? (f : Forest) (id : ScopeId) : Option ScopeId := (f.scope id).ancestors.head?

def isRoot (f : Forest) (id : ScopeId) : Bool := (f.parent? id).isNone

/-- The number of scopes around a scope. -/
def depth (f : Forest) (id : ScopeId) : Nat := (f.scope id).ancestors.length

/-- Declares a name in a scope.  A name that the scope's own table has is refused. -/
def declare (f : Forest) (id : ScopeId) (name : String) (d : NodeId) (position : Position) :
    Except Diagnostic Forest :=
  match (f.scope id).table.declare? name d with
  | some table => .ok (f.setTable id table)
  | none => .error ⟨.alreadyDeclared name, position⟩

/-- The table of a scope, and the forest with that table emptied. -/
def take (f : Forest) (id : ScopeId) : NameTable × Forest :=
  ((f.scope id).table, f.setTable id NameTable.empty)

end Forest

end StageScript

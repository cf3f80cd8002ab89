import StageScript.Scope.Table

/-!
# Scope chains

A place in a script sees the tables of the blocks around it, the innermost first.
A name stands for what the first table that has it says.
-/

namespace StageScript

/-- The tables that a place sees, the innermost first. -/
abbrev Chain := List NameTable

namespace Chain

/-- The definition that a name stands for. -/
def find? (chain : Chain) (name : String) : Option NodeId :=
  chain.findSome? fun table => table.find? name

/-- The chain from the table that declares a name outward, and the definition there. -/
def declaring? : Chain → String → Option (Chain × NodeId)
  | [], _ => none
  | table :: outer, name =>
    match table.find? name with
    | some id => some (table :: outer, id)
    | none => declaring? outer name

end Chain

end StageScript

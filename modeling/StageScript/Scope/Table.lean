import StageScript.Tree.Definition

/-!
# Name tables

The names that one block declares, each with the node of its definition, in the
order of declaration.
-/

namespace StageScript

/-- Names and the definitions they stand for. -/
structure NameTable where
  entries : List (String × NodeId)
  deriving DecidableEq, Inhabited

namespace NameTable

def empty : NameTable := ⟨[]⟩

def find? (t : NameTable) (name : String) : Option NodeId := t.entries.lookup name

/-- The table with one more entry, at the end. -/
def insert (t : NameTable) (name : String) (id : NodeId) : NameTable :=
  ⟨t.entries ++ [(name, id)]⟩

/-- The table with one more entry; none if the name has one already. -/
def declare? (t : NameTable) (name : String) (id : NodeId) : Option NameTable :=
  match t.find? name with
  | some _ => none
  | none => some (t.insert name id)

/-- The definitions of a table by increasing number. -/
def ids (t : NameTable) : List NodeId := (t.entries.map Prod.snd).mergeSort

end NameTable

end StageScript

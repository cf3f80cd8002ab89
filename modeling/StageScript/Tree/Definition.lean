import StageScript.Ty

/-!
# Definitions

A definition introduces a name: storage, a callable with a body, or what the host
provides.
-/

namespace StageScript

/-- The number of a node of a tree. -/
abbrev NodeId := Nat

inductive Definition where
  | var (name : String)
  | param (name : String)
  | loopVar (name : String)
  /-- The value a function returns. -/
  | result
  | sub (name : String) (body : NodeId)
  /-- A routine that the host starts. -/
  | entryRoutine (name : String) (body : NodeId)
  | func (name : String) (params : List NodeId) (body : NodeId)
  | task (name : String) (params : List NodeId) (body : NodeId)
  | hostFunc (name : String) (arity : Nat) (returns : Ty) (pure : Bool)
  | hostConst (name : String) (ty : Ty)
  deriving DecidableEq, Inhabited

namespace Definition

def name : Definition → String
  | var name => name
  | param name => name
  | loopVar name => name
  | result => "result"
  | sub name _ => name
  | entryRoutine name _ => name
  | func name _ _ => name
  | task name _ _ => name
  | hostFunc name _ _ _ => name
  | hostConst name _ => name

/-- The number of arguments that a call has to give. -/
def arity : Definition → Nat
  | func _ params _ => params.length
  | task _ params _ => params.length
  | hostFunc _ arity _ _ => arity
  | _ => 0

/-- The block of a callable of the script. -/
def body? : Definition → Option NodeId
  | sub _ body => some body
  | entryRoutine _ body => some body
  | func _ _ body => some body
  | task _ _ body => some body
  | _ => none

def isVariable : Definition → Bool
  | var _ => true
  | _ => false

/-- Storage that a script can assign to. -/
def isAssignable : Definition → Bool
  | var _ => true
  | param _ => true
  | loopVar _ => true
  | result => true
  | _ => false

/-- What the host provides is constant or made anew by each call. -/
def isHost : Definition → Bool
  | hostFunc _ _ _ _ => true
  | hostConst _ _ => true
  | _ => false

/-- A callable without value. -/
def isRoutine : Definition → Bool
  | sub _ _ => true
  | entryRoutine _ _ => true
  | task _ _ _ => true
  | _ => false

end Definition

end StageScript

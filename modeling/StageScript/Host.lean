import StageScript.Tree.Definition

/-!
# What the host provides

The host adds functions and constants to every script.  They are declared around
the script as if it had declared them itself.
-/

namespace StageScript

structure HostFunction where
  name : String
  arity : Nat
  returns : Ty
  /-- A call has no effect that can be seen. -/
  pure : Bool
  deriving DecidableEq, Inhabited

structure HostConstant where
  name : String
  ty : Ty
  deriving DecidableEq, Inhabited

structure Host where
  functions : List HostFunction
  constants : List HostConstant
  deriving DecidableEq, Inhabited

namespace Host

def empty : Host := ⟨[], []⟩

/-- Functions of one shape. -/
def family (names : List String) (arity : Nat) (returns : Ty) (pure : Bool) : List HostFunction :=
  names.map fun name => ⟨name, arity, returns, pure⟩

/-- The host of stage, enemy, shot and player scripts. -/
def standard : Host where
  functions :=
    family ["sin", "cos", "tan", "asin", "acos", "atan", "log", "log10"] 1 .real true
      ++ family ["absolute", "floor", "ceil", "round", "truncate", "trunc"] 1 .real true
      ++ family ["atan2", "min", "max", "power", "modc"] 2 .real true
      ++ family ["length"] 1 .real true
      ++ family ["ToString", "IntToString"] 1 .string true
      ++ family ["rtos", "vtos"] 2 .string true
      ++ family ["atoi", "ator"] 1 .real true
      ++ family ["erase", "append"] 2 (.array .any) true
      ++ family ["slice"] 3 (.array .any) true
      ++ family ["GetPlayerX", "GetPlayerY"] 0 .real true
      ++ family ["GetCommonData"] 2 .any true
      ++ family ["rand"] 2 .real false
      ++ family ["WriteLog"] 1 .any false
      ++ family ["SetCommonData"] 2 .any false
      ++ family ["CreateShotA1"] 6 .real false
      ++ family ["ObjMove_SetPosition"] 3 .any false
      ++ family ["Obj_Delete"] 1 .any false
      ++ family ["CloseScript"] 1 .any false
  constants := [⟨"true", .bool⟩, ⟨"false", .bool⟩, ⟨"pi", .real⟩]

/-- The definitions that the host declares, functions before constants. -/
def definitions (h : Host) : List Definition :=
  h.functions.map (fun f => .hostFunc f.name f.arity f.returns f.pure)
    ++ h.constants.map fun c => .hostConst c.name c.ty

end Host

end StageScript

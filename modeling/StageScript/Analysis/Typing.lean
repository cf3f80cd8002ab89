import StageScript.Analysis.Annotations

/-!
# Notes of expressions

The note of an expression follows from the notes of its parts.
-/

namespace StageScript.Note

/-- A value that is written down. -/
def literal (ty : Ty) : Note := ⟨true, ty, false⟩

/-- The empty string is the empty array. -/
def string (value : String) : Note :=
  literal (if value.isEmpty then .emptyArray else .string)

/-- An array of elements with the given notes. -/
def array (effectFree : Bool) (elems : List Note) : Note :=
  ⟨effectFree, .array (Ty.unifyElements (elems.map Note.ty)), elems.any Note.copied⟩

def unary (op : UnaryOp) (operand : Note) : Note :=
  let ty :=
    match op with
    | .neg => Ty.real
    | .abs => Ty.real
    | .not => Ty.bool
  ⟨operand.effectFree, ty, false⟩

/-- The type of an operation on operands of the types `l` and `r`. -/
def binaryType (l r : Ty) : OperatorClass → Ty
  | .arithmeticOrArray =>
    if l = .real ∧ r = .real then .real
    else if l.isArray && r.isArray then l.unify r
    else .any
  | .arithmetic => .real
  | .compare => .bool
  | .logical => if l = r then l else .any
  | .concat => if l.isArrayLike && r.isArrayLike then l.unify r else .array .any

/-- Whether an operation can give back a part of its operands. -/
def passesOperands : OperatorClass → Bool
  | .logical => true
  | .concat => true
  | _ => false

def binary (op : BinaryOp) (l r : Note) : Note where
  effectFree := l.effectFree && r.effectFree
  ty := binaryType l.ty r.ty op.operatorClass
  copied := passesOperands op.operatorClass && (l.copied || r.copied)

def element (base index : Note) : Note :=
  ⟨base.effectFree && index.effectFree, base.ty.element, false⟩

def slice (base bounds : Note) : Note :=
  ⟨base.effectFree && bounds.effectFree, if base.ty.isArrayLike then base.ty else .any, false⟩

end StageScript.Note

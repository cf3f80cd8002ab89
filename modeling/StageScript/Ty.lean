/-!
# Types of values

Scalars, arrays, the type `any` of what is not known, and the type `empty` that only
stands as the element of the empty array.  The empty string is the empty array.
Types are never in conflict: `unify` and `unifyElements` widen to `any` instead.
-/

namespace StageScript

inductive Ty where
  | real | char | bool | string
  | array (element : Ty)
  | any
  | empty
  deriving DecidableEq, Inhabited

namespace Ty

/-- The type of the empty array and of the empty string. -/
def emptyArray : Ty := array empty

def isArray : Ty → Bool
  | array _ => true
  | _ => false

/-- Arrays, and strings, which are arrays of characters. -/
def isArrayLike : Ty → Bool
  | array _ => true
  | string => true
  | _ => false

def isEmptyArray (t : Ty) : Bool := t = emptyArray

/-- The type of an element picked from a value of type `t`. -/
def element (t : Ty) : Ty :=
  match t with
  | array empty => any
  | array e => e
  | string => char
  | _ => any

/-- The type of two array-like values put together.  The empty array takes the type of the
other one. -/
def unify (a b : Ty) : Ty :=
  if a = b then a
  else if a.isEmptyArray && b.isArrayLike then b
  else if b.isEmptyArray && a.isArrayLike then a
  else array any

/-- The element type that holds `a` and `b`, or none if only `any` does. -/
def widen? (a b : Ty) : Option Ty :=
  if b = a then some a
  else if b.isEmptyArray && a.isArrayLike then some a
  else if a.isEmptyArray && b.isArrayLike then some b
  else none

/-- The element type of an array of values of these types. -/
def unifyElements : List Ty → Ty
  | [] => empty
  | t :: ts => (ts.foldlM widen? t).getD any

/-- How a type is written. -/
def text : Ty → String
  | real => "real"
  | char => "char"
  | bool => "bool"
  | string => "string"
  | array e => e.text ++ "[]"
  | any => "any"
  | empty => "empty"

end Ty

end StageScript

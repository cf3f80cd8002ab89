import StageScript.Proofs.Tree.Place

/-!
# Values of expressions

The type of an expression, and whether its value is copied before it is used anew, as a
function of the expression and of the tables that it sees: no order of visits and no state
takes part in it.  `Value.ofKind` says what a node has by what its parts have, and `Tree.value`
is the function that follows it down to the leaves (`Tree.WellFormed.value_eq`).
-/

namespace StageScript

structure Value where
  ty : Ty
  copied : Bool
  deriving DecidableEq

namespace Value

def unknown : Value := ⟨.any, true⟩

/-- A value that is part of no variable. -/
def fresh (ty : Ty) : Value := ⟨ty, false⟩

def array (elems : List Value) : Value :=
  ⟨.array (Ty.unifyElements (elems.map ty)), elems.any copied⟩

def unary : UnaryOp → Value
  | .neg | .abs => fresh .real
  | .not => fresh .bool

def binary (op : BinaryOp) (l r : Value) : Value :=
  match op with
  | .add | .sub =>
    fresh (if l.ty = .real ∧ r.ty = .real then .real
      else if l.ty.isArray && r.ty.isArray then l.ty.unify r.ty
      else .any)
  | .mul | .div | .rem | .pow => fresh .real
  | .lt | .gt | .le | .ge | .eq | .ne => fresh .bool
  | .and | .or => ⟨if l.ty = r.ty then l.ty else .any, l.copied || r.copied⟩
  | .cat =>
    ⟨if l.ty.isArrayLike && r.ty.isArrayLike then l.ty.unify r.ty else .array .any,
      l.copied || r.copied⟩

/-- What a definition gives.  The host declares it; storage and callables of a script can give
anything, and a part of a variable too. -/
def ofDefinition : Definition → Value
  | .hostFunc _ _ returns _ => fresh returns
  | .hostConst _ ty => fresh ty
  | _ => unknown

def ofName (t : Tree) (chain : Chain) (name : String) : Value :=
  match (chain.find? name).bind t.kind? with
  | some (.definition d) => ofDefinition d
  | _ => unknown

/-- The value of a node, by those of its parts. -/
def ofKind (t : Tree) (chain : Chain) (part : NodeId → Value) : NodeKind → Value
  | .num _ => fresh .real
  | .char _ => fresh .char
  | .str s => fresh (if s.isEmpty then .emptyArray else .string)
  | .array elems => array (elems.map part)
  | .unary op _ => unary op
  | .binary op lhs rhs => binary op (part lhs) (part rhs)
  | .ref name => ofName t chain name
  | .call name _ => ofName t chain name
  | .element base _ => fresh (part base).ty.element
  | .slice base _ => fresh (if (part base).ty.isArrayLike then (part base).ty else .any)
  | _ => unknown

/-- Only the parts of a node matter for it. -/
theorem ofKind_congr {t : Tree} {chain : Chain} {part other : NodeId → Value} {k : NodeKind}
    (h : ∀ c ∈ k.children, part c = other c) : ofKind t chain part k = ofKind t chain other k := by
  cases k with
  | array elems =>
    have hElems : elems.map part = elems.map other := List.map_congr_left h
    simp only [ofKind, hElems]
  | binary op lhs rhs =>
    simp only [ofKind, h lhs (by simp [NodeKind.children]), h rhs (by simp [NodeKind.children])]
  | element base index => simp only [ofKind, h base (by simp [NodeKind.children])]
  | slice base bounds => simp only [ofKind, h base (by simp [NodeKind.children])]
  | _ => rfl

end Value

namespace Tree

def valueAt (t : Tree) (chain : Chain) : Nat → NodeId → Value
  | 0, _ => .unknown
  | depth + 1, id =>
    match t.kind? id with
    | some k => .ofKind t chain (t.valueAt chain depth) k
    | none => .unknown

/-- The value of a node that sees the tables of `chain`.  Parts have smaller numbers. -/
def value (t : Tree) (chain : Chain) (id : NodeId) : Value := t.valueAt chain (id + 1) id

theorem WellFormed.valueAt_eq {t : Tree} (h : t.WellFormed) (chain : Chain) {depth other : Nat}
    {id : NodeId} :
    id < depth → id < other → t.valueAt chain depth id = t.valueAt chain other id := by
  refine eq_of_smaller (f := t.valueAt chain) fun d e id hSmaller => ?_
  rw [valueAt, valueAt]
  cases hk : t.kind? id with
  | none => rfl
  | some k => exact Value.ofKind_congr fun c hc => hSmaller c (h.child_lt hk hc)

/-- The value of a node follows from those of its parts. -/
theorem WellFormed.value_eq {t : Tree} (h : t.WellFormed) (chain : Chain) {id : NodeId}
    {k : NodeKind} (hk : t.kind? id = some k) :
    t.value chain id = .ofKind t chain (t.value chain) k := by
  rw [value, valueAt, hk]
  refine Value.ofKind_congr fun c hc => ?_
  exact h.valueAt_eq chain (h.child_lt hk hc) (Nat.lt_succ_self c)

end Tree

end StageScript

import StageScript.Scope.Chain
import StageScript.Tree.Basic

/-!
# Checks

The checks of a script look at every block and every body of a callable, used or
not: names are declared, calls have the right number of arguments, values are
returned from functions only, and so on.  All faults are found, and given in the
order of the source.
-/

namespace StageScript

/-- What checks found: faults of the script, and a fault of the tree that stopped them. -/
structure Findings where
  reports : List Diagnostic
  fatal : Option Diagnostic
  deriving DecidableEq, Inhabited

namespace Findings

/-- Nothing to report. -/
def clean : Findings := ⟨[], none⟩

/-- One fault of the script. -/
def report (cause : Cause) (position : Position) : Findings := ⟨[⟨cause, position⟩], none⟩

/-- A fault of the tree. -/
def stop (d : Diagnostic) : Findings := ⟨[], some d⟩

/-- A fault, if a rule is broken. -/
def require (holds : Bool) (cause : Cause) (position : Position) : Findings :=
  if holds then clean else report cause position

/-- The findings of two checks in turn.  A fault of the tree stops the second. -/
def andThen (first : Findings) (second : Unit → Findings) : Findings :=
  match first.fatal with
  | some _ => first
  | none =>
    let rest := second ()
    ⟨first.reports ++ rest.reports, rest.fatal⟩

instance : AndThen Findings := ⟨andThen⟩

/-- The findings of a check of each of some items in turn. -/
def all {α : Type} (check : α → Findings) : List α → Findings
  | [] => clean
  | x :: xs => check x >> all check xs

/-- Every fault, by its offset in the source; of two at one offset, the first found. -/
def sorted (f : Findings) : List Diagnostic :=
  (f.reports ++ f.fatal.toList).mergeSort fun a b => a.position.offset ≤ b.position.offset

end Findings

/-- The callables, by what they can return. -/
inductive CallableKind where
  | function
  | routine
  deriving DecidableEq, Inhabited

namespace CallableKind

/-- The kind of a definition with a body, and its body. -/
def ofDefinition? : Definition → Option (CallableKind × NodeId)
  | .func _ _ body => some (function, body)
  | .sub _ body => some (routine, body)
  | .task _ _ body => some (routine, body)
  | .entryRoutine _ body => some (routine, body)
  | _ => none

end CallableKind

namespace Check

/-- Where a node stands. -/
structure Context where
  chain : Chain
  /-- The innermost callable around the node. -/
  callable : Option CallableKind
  /-- Whether a loop of that callable is around the node. -/
  inLoop : Bool
  deriving DecidableEq, Inhabited

abbrev Checker := Context → NodeId → Findings

/-- Goes on with what a lookup gives. -/
def lookup {α : Type} (found : Except Diagnostic α) (check : α → Findings) : Findings :=
  match found with
  | .ok a => check a
  | .error d => .stop d

/-- A use of a name with `received` arguments. -/
def reference (tree : Tree) (chain : Chain) (position : Position) (name : String)
    (received : Nat) (inExpression : Bool) : Findings :=
  match chain.find? name with
  | none => .report (.undefinedName name) position
  | some id =>
    lookup (tree.definition id) fun d =>
      if inExpression && d.isRoutine then .report (.routineInExpression name) position
      else .require (d.arity = received) (.wrongArgumentCount name d.arity received) position

/-- A name that is assigned to. -/
def target (tree : Tree) (chain : Chain) (position : Position) (name : String) : Findings :=
  match chain.find? name with
  | none => .report (.undefinedName name) position
  | some id =>
    lookup (tree.definition id) fun d =>
      .require d.isAssignable (.assignToNonVariable name) position

/-- The body of a definition of a block, if it has one. -/
def body (tree : Tree) (check : Checker) (chain : Chain) (id : NodeId) : Findings :=
  lookup (tree.definition id) fun d =>
    match CallableKind.ofDefinition? d with
    | none => .clean
    | some (kind, block) =>
      lookup (tree.block block) fun _ => check ⟨chain, some kind, false⟩ block

/-- The statements of a block, then the bodies of what it declares. -/
def block (tree : Tree) (check : Checker) (context : Context) (stmts : List NodeId)
    (table : NameTable) : Findings :=
  let inner := { context with chain := table :: context.chain }
  .all (check inner) stmts >> .all (body tree check inner.chain) table.ids

/-- A node whose parts are checked by `check`. -/
def nodeWith (tree : Tree) (check : Checker) (context : Context) (id : NodeId) : Findings :=
  lookup (tree.node id) fun node =>
    let position := node.span.start
    let loopBody := check { context with inLoop := true }
    match node.kind with
    | .ref name => reference tree context.chain position name 0 true
    | .call name args =>
      reference tree context.chain position name args.length true >> .all (check context) args
    | .callStmt name args =>
      reference tree context.chain position name args.length false >> .all (check context) args
    | .target name indices =>
      target tree context.chain position name >> .all (check context) indices
    | .returnValue value =>
      .require (context.callable = some .function) .returnValueOutsideFunction position
        >> check context value
    | .returnVoid => .require context.callable.isSome .returnOutsideRoutine position
    | .breakLoop => .require context.inLoop .breakOutsideLoop position
    | .block stmts table => block tree check context stmts table
    | .loop body => loopBody body
    | .times count body => check context count >> loopBody body
    | .whileLoop cond body => check context cond >> loopBody body
    | .ascent bounds body => check context bounds >> loopBody body
    | .descent bounds body => check context bounds >> loopBody body
    | .definition _ => .clean
    | kind => .all (check context) kind.children

/-- The check that goes at most `depth` nodes deep. -/
def checkAt (tree : Tree) : Nat → Checker
  | 0 => fun _ id => .stop (Tree.cyclicNode id)
  | depth + 1 => nodeWith tree (checkAt tree depth)

/-- The check of the root block, which sees no table but its own. -/
def root (tree : Tree) : Findings :=
  lookup (tree.block tree.root) fun _ =>
    checkAt tree (tree.size + 1) ⟨[], none, false⟩ tree.root

end Check

/-- The faults of a script, in the order of the source. -/
def check (tree : Tree) : List Diagnostic := (Check.root tree).sorted

end StageScript

import StageScript.Analysis.Typing
import StageScript.Options
import StageScript.Scope.Chain

/-!
# Analysis

The analysis walks a tree from its root block and from the entry routines.  A
definition is walked when a use of it is met for the first time, in the scope that
declares it; so what is never used is never walked, and nothing is walked twice
through its uses.
-/

namespace StageScript

/-- A step of an analysis, which changes the annotations. -/
abbrev Analysis := StateT Annotations (Except Diagnostic)

namespace Analysis

/-- The analysis of a node that sees the given tables. -/
abbrev Walker := Chain → NodeId → Analysis Unit

def look {α : Type} (f : Annotations → α) : Analysis α := fun a => .ok (f a, a)

/-- Changes the annotations by a step that can fail. -/
def update (f : Annotations → Except Diagnostic Annotations) : Analysis Unit := fun a =>
  (f a).map fun b => ((), b)

def visit (id : NodeId) : Analysis Unit := update fun a => .ok (a.visit id)

def annotate (id : NodeId) (note : Note) : Analysis Unit :=
  update fun a => a.updateNote id fun _ => note

def setEffectFree (id : NodeId) (effectFree : Bool) : Analysis Unit :=
  update fun a => a.updateNote id fun note => { note with effectFree }

def note (id : NodeId) : Analysis Note := look (·.note id)

/-- Walks nodes in turn, and tells whether each was without effect. -/
def walkAll (walk : Walker) (chain : Chain) : List NodeId → Analysis Bool
  | [] => pure true
  | id :: ids => do
    walk chain id
    let first ← note id
    let rest ← walkAll walk chain ids
    return first.effectFree && rest

/-- Marks a definition as reached, and tells whether it was unreachable before. -/
def reach (id : NodeId) : Analysis Bool := do
  let found ← look (·.state id)
  let before ← found
  update fun a => a.updateState id fun s => { s with unreachable := false }
  return before.unreachable

/-- Finds what a name stands for and walks it at its first use.  It is marked first, so that a
use of itself inside it does not walk it again. -/
def resolve (walk : Walker) (chain : Chain) (name : String) : Analysis (Option NodeId) :=
  match chain.declaring? name with
  | none => pure none
  | some (declared, id) => do
    if ← reach id then walk declared id
    return some id

/-- Counts a use of a definition, if it is a variable. -/
def countUse (tree : Tree) (id : NodeId) (count : DefState → DefState) : Analysis Unit := do
  let d ← tree.definition id
  if d.isVariable then update fun a => a.updateState id count

def countRead (tree : Tree) (id : NodeId) : Analysis Unit :=
  countUse tree id fun s => { s with reads := narrow (s.reads + 1) }

def countAssign (tree : Tree) : Option NodeId → Analysis Unit
  | none => pure ()
  | some id => countUse tree id fun s => { s with assigns := narrow (s.assigns + 1) }

/-- A name or a call in an expression. -/
def reference (tree : Tree) (walk : Walker) (chain : Chain) (id : NodeId) (name : String)
    (args : List NodeId) : Analysis Unit := do
  match ← resolve walk chain name with
  | none =>
    let _ ← walkAll walk chain args
    annotate id Note.unknown
  | some target =>
    let d ← tree.definition target
    let returns ← look fun a => ((a.state? target).map DefState.returns).getD .any
    let effectFree := (← note target).effectFree
    let argsFree ← walkAll walk chain args
    countRead tree target
    annotate id ⟨effectFree && argsFree, returns, !d.isHost⟩

/-- A block.  The root block, which sees no other table, starts the entry routines. -/
def block (tree : Tree) (options : Options) (walk : Walker) (chain : Chain) (id : NodeId) :
    Analysis Unit := do
  let (stmts, table) ← tree.block id
  let inner := table :: chain
  if chain.isEmpty then
    options.entryRoutines.forM fun name => do
      let _ ← resolve walk inner name
  let _ ← walkAll walk inner stmts

/-- A definition.  Storage has no effect; a callable is its body. -/
def definition (walk : Walker) (chain : Chain) (id : NodeId) : Definition → Analysis Unit
  | .var _ | .param _ | .loopVar _ | .result => setEffectFree id true
  | .sub _ body | .entryRoutine _ body | .func _ _ body | .task _ _ body => walk chain body
  | .hostFunc _ _ _ _ | .hostConst _ _ => pure ()

/-- A node whose parts are walked by `walk`. -/
def nodeWith (tree : Tree) (options : Options) (walk : Walker) (chain : Chain) (id : NodeId) :
    Analysis Unit := do
  let node ← tree.node id
  visit id
  match node.kind with
  | .num _ => annotate id (.literal .real)
  | .char _ => annotate id (.literal .char)
  | .str value => annotate id (.string value)
  | .array elems =>
    let effectFree ← walkAll walk chain elems
    annotate id (.array effectFree (← look fun a => elems.map a.note))
  | .unary op operand =>
    walk chain operand
    annotate id (.unary op (← note operand))
  | .binary op lhs rhs =>
    walk chain lhs
    walk chain rhs
    annotate id (.binary op (← note lhs) (← note rhs))
  | .ref name => reference tree walk chain id name []
  | .call name args => reference tree walk chain id name args
  | .element base index =>
    walk chain base
    walk chain index
    annotate id (.element (← note base) (← note index))
  | .range start stop =>
    walk chain start
    walk chain stop
    setEffectFree id ((← note start).effectFree && (← note stop).effectFree)
  | .slice base bounds =>
    walk chain base
    walk chain bounds
    annotate id (.slice (← note base) (← note bounds))
  | .target name indices =>
    let found ← resolve walk chain name
    let _ ← walkAll walk chain indices
    countAssign tree found
  | .assign _ lhs rhs =>
    walk chain lhs
    walk chain rhs
    setEffectFree id false
  | .succ lhs =>
    walk chain lhs
    setEffectFree id false
  | .pred lhs =>
    walk chain lhs
    setEffectFree id false
  | .varInit name rhs =>
    let found ← resolve walk chain name
    walk chain rhs
    setEffectFree id false
    countAssign tree found
  | .callStmt name args =>
    let _ ← resolve walk chain name
    let _ ← walkAll walk chain args
  | .block _ _ => block tree options walk chain id
  | .definition d => definition walk chain id d
  | kind =>
    let _ ← walkAll walk chain kind.children

/-- The walk that goes at most `depth` nodes deep. -/
def walkAt (tree : Tree) (options : Options) : Nat → Walker
  | 0 => fun _ id => throw (Tree.cyclicNode id)
  | depth + 1 => nodeWith tree options (walkAt tree options depth)

/-- The depth of every walk of a tree in which no node is a part of itself: a walk meets each
definition once, and between two definitions no node twice. -/
def maxDepth (tree : Tree) : Nat := (tree.definitions.length + 1) * (tree.size + 1)

end Analysis

/-- The annotations of a tree. -/
def analyze (tree : Tree) (options : Options) : Except Diagnostic Annotations := do
  let walk := Analysis.walkAt tree options (Analysis.maxDepth tree)
  let start := (Annotations.ofTree tree).visit tree.root
  let (_, annotations) ← Analysis.block tree options walk [] tree.root start
  return annotations

end StageScript

import StageScript.Check
import StageScript.Proofs.Tree.Place

/-!
# The rules of scripts

What a node is not allowed to be at its place, said of each node by itself: `Breaks` has one
constructor for each rule.  A `Violation` is a node of a tree that breaks a rule at the place
where it stands, with the diagnostic that belongs to it.  A node breaks at most one rule
(`Violation.unique`).
-/

namespace StageScript

namespace NodeKind

def named? : NodeKind → Option String
  | ref name => some name
  | call name _ => some name
  | callStmt name _ => some name
  | target name _ => some name
  | _ => none

/-- The name that a node takes a value from, and the number of arguments it gives. -/
def valued? : NodeKind → Option (String × Nat)
  | ref name => some (name, 0)
  | call name args => some (name, args.length)
  | _ => none

@[reducible] def isRuled : NodeKind → Bool
  | ref _ => true
  | call _ _ => true
  | callStmt _ _ => true
  | target _ _ => true
  | returnValue _ => true
  | returnVoid => true
  | breakLoop => true
  | _ => false

end NodeKind

namespace Definition

/-- What is called for its effect alone. -/
inductive Valueless : Definition → Prop
  | sub (name : String) (body : NodeId) : Valueless (sub name body)
  | task (name : String) (params : List NodeId) (body : NodeId) :
      Valueless (task name params body)
  | entryRoutine (name : String) (body : NodeId) : Valueless (entryRoutine name body)

/-- What can be assigned to. -/
inductive Storage : Definition → Prop
  | var (name : String) : Storage (var name)
  | param (name : String) : Storage (param name)
  | loopVar (name : String) : Storage (loopVar name)
  | result : Storage result

/-- The number of arguments that a use of the definition gives: as many as there are parameters, or
as the host says. -/
inductive Takes : Definition → Nat → Prop
  | func (name : String) (params : List NodeId) (body : NodeId) :
      Takes (func name params body) params.length
  | task (name : String) (params : List NodeId) (body : NodeId) :
      Takes (task name params body) params.length
  | hostFunc (name : String) (arity : Nat) (returns : Ty) (pure : Bool) :
      Takes (hostFunc name arity returns pure) arity
  | sub (name : String) (body : NodeId) : Takes (sub name body) 0
  | entryRoutine (name : String) (body : NodeId) : Takes (entryRoutine name body) 0
  | hostConst (name : String) (ty : Ty) : Takes (hostConst name ty) 0
  | storage {d : Definition} : d.Storage → Takes d 0

variable {d : Definition} {n : Nat}

theorem valueless_iff : d.Valueless ↔ d.isRoutine = true := by
  constructor
  · rintro (_ | _ | _) <;> rfl
  · cases d <;> simp [isRoutine, Valueless.sub, Valueless.task, Valueless.entryRoutine]

theorem storage_iff : d.Storage ↔ d.isAssignable = true := by
  constructor
  · rintro (_ | _ | _ | _) <;> rfl
  · cases d <;> simp [isAssignable, Storage.var, Storage.param, Storage.loopVar, Storage.result]

theorem takes_arity (d : Definition) : d.Takes d.arity := by
  cases d with
  | var name => exact .storage (.var name)
  | param name => exact .storage (.param name)
  | loopVar name => exact .storage (.loopVar name)
  | result => exact .storage .result
  | _ => constructor

theorem takes_iff : d.Takes n ↔ d.arity = n := by
  constructor
  · intro h
    cases h with
    | storage h => cases h <;> rfl
    | _ => rfl
  · rintro rfl
    exact d.takes_arity

end Definition

def Resolves (t : Tree) (chain : Chain) (name : String) (d : Definition) : Prop :=
  ∃ id, chain.find? name = some id ∧ t.kind? id = some (.definition d)

/-- The rule that a node breaks at a place. -/
inductive Breaks (t : Tree) (place : Place) : NodeKind → Cause → Prop
  /-- A name that is in the table of no block around. -/
  | undefined {k : NodeKind} {name : String} : k.named? = some name →
      (∀ table ∈ place.chain, table.find? name = none) → Breaks t place k (.undefinedName name)
  /-- A routine without value, used as a value. -/
  | routine {k : NodeKind} {name : String} {n : Nat} {d : Definition} :
      k.valued? = some (name, n) → Resolves t place.chain name d → d.Valueless →
      Breaks t place k (.routineInExpression name)
  /-- A value of what needs another number of arguments. -/
  | value {k : NodeKind} {name : String} {m n : Nat} {d : Definition} :
      k.valued? = some (name, n) → Resolves t place.chain name d → ¬ d.Valueless → d.Takes m →
      m ≠ n → Breaks t place k (.wrongArgumentCount name m n)
  /-- A call, as a statement, of what needs another number of arguments. -/
  | call {name : String} {args : List NodeId} {m : Nat} {d : Definition} :
      Resolves t place.chain name d → d.Takes m → m ≠ args.length →
      Breaks t place (.callStmt name args) (.wrongArgumentCount name m args.length)
  /-- An assignment to what is no storage. -/
  | target {name : String} {indices : List NodeId} {d : Definition} :
      Resolves t place.chain name d → ¬ d.Storage →
      Breaks t place (.target name indices) (.assignToNonVariable name)
  /-- A value returned, and not from a function. -/
  | returnValue {value : NodeId} :
      (∀ name params body, place.callable ≠ some (.func name params body)) →
      Breaks t place (.returnValue value) .returnValueOutsideFunction
  /-- A return from nothing. -/
  | returnVoid : place.callable = none → Breaks t place .returnVoid .returnOutsideRoutine
  /-- A break out of no loop. -/
  | breakLoop : place.looped = false → Breaks t place .breakLoop .breakOutsideLoop

/-- The node breaks a rule where it stands, and `d` says so at its start. -/
def Violation (t : Tree) (id : NodeId) (d : Diagnostic) : Prop :=
  ∃ place node, Stands t place id ∧ t.get? id = some node ∧ Breaks t place node.kind d.cause ∧
    d.position = node.span.start

theorem Resolves.unique {t : Tree} {chain : Chain} {name : String} {d e : Definition}
    (hd : Resolves t chain name d) (he : Resolves t chain name e) : d = e := by
  obtain ⟨i, hi, hk⟩ := hd
  obtain ⟨j, hj, hl⟩ := he
  rw [hi] at hj
  cases hj
  rw [hk] at hl
  cases hl
  rfl

theorem Resolves.not_undefined {t : Tree} {chain : Chain} {name : String} {d : Definition}
    (h : Resolves t chain name d) : ¬ ∀ table ∈ chain, table.find? name = none := by
  obtain ⟨i, hi, -⟩ := h
  intro hn
  rw [Chain.find?_eq_none_iff.mpr hn] at hi
  cases hi

/-- The value that a name gives is a use of the name. -/
theorem NodeKind.named?_of_valued? {k : NodeKind} {name : String} {n : Nat}
    (h : k.valued? = some (name, n)) : k.named? = some name := by
  cases k <;> simp_all [valued?, named?]

theorem Breaks.isRuled {t : Tree} {place : Place} {k : NodeKind} {c : Cause}
    (h : Breaks t place k c) : k.isRuled = true := by
  cases h with
  | undefined hk _ => cases k <;> simp_all [NodeKind.named?, NodeKind.isRuled]
  | routine hk _ _ => cases k <;> simp_all [NodeKind.valued?, NodeKind.isRuled]
  | value hk _ _ _ _ => cases k <;> simp_all [NodeKind.valued?, NodeKind.isRuled]
  | _ => rfl

/-- A name that is not defined is the only fault of its node. -/
theorem Breaks.of_undefined {t : Tree} {place : Place} {k : NodeKind} {name : String} {c : Cause}
    (hk : k.named? = some name) (hn : ∀ table ∈ place.chain, table.find? name = none)
    (hc : Breaks t place k c) : c = .undefinedName name := by
  cases hc with
  | undefined hl _ =>
    cases hk.symm.trans hl
    rfl
  | routine hl hd _ | value hl hd _ _ _ =>
    cases hk.symm.trans (NodeKind.named?_of_valued? hl)
    exact absurd hn hd.not_undefined
  | call hd _ _ | target hd _ =>
    cases hk
    exact absurd hn hd.not_undefined
  | returnValue _ | returnVoid _ | breakLoop _ => cases hk

/-- The rule that a value breaks depends on the definition of its name alone. -/
theorem Breaks.of_valued {t : Tree} {place : Place} {k : NodeKind} {name : String} {n : Nat}
    {d : Definition} {c : Cause} (hk : k.valued? = some (name, n))
    (hd : Resolves t place.chain name d) (hc : Breaks t place k c) :
    (d.Valueless ∧ c = .routineInExpression name) ∨
      (¬ d.Valueless ∧ d.arity ≠ n ∧ c = .wrongArgumentCount name d.arity n) := by
  cases hc with
  | undefined hl hn =>
    cases (NodeKind.named?_of_valued? hk).symm.trans hl
    exact absurd hn hd.not_undefined
  | routine hl he hr =>
    cases hk.symm.trans hl
    exact Or.inl ⟨hd.unique he ▸ hr, rfl⟩
  | value hl he hv hTakes ha =>
    cases hk.symm.trans hl
    cases hd.unique he
    cases Definition.takes_iff.mp hTakes
    exact Or.inr ⟨hv, ha, rfl⟩
  | call _ _ _ | target _ _ | returnValue _ | returnVoid _ | breakLoop _ => cases hk

/-- A value with the right number of arguments breaks no rule. -/
theorem Breaks.not_of_valued {t : Tree} {place : Place} {k : NodeKind} {name : String} {n : Nat}
    {d : Definition} (hk : k.valued? = some (name, n)) (hd : Resolves t place.chain name d)
    (hv : ¬ d.Valueless) (ha : d.arity = n) {c : Cause} : ¬ Breaks t place k c := by
  intro hb
  rcases Breaks.of_valued hk hd hb with ⟨hr, -⟩ | ⟨-, hne, -⟩
  · exact hv hr
  · exact hne ha

/-- A node breaks at most one rule at a place. -/
theorem Breaks.unique {t : Tree} {place : Place} {k : NodeKind} {b c : Cause}
    (hb : Breaks t place k b) (hc : Breaks t place k c) : b = c := by
  cases hb with
  | undefined hk hn => exact (hc.of_undefined hk hn).symm
  | routine hk hd hr =>
    rcases hc.of_valued hk hd with ⟨-, rfl⟩ | ⟨hv, -⟩
    · rfl
    · exact absurd hr hv
  | value hk hd hv hTakes _ =>
    cases Definition.takes_iff.mp hTakes
    rcases hc.of_valued hk hd with ⟨hr, -⟩ | ⟨-, -, rfl⟩
    · exact absurd hr hv
    · rfl
  | call hd hTakes _ =>
    cases hc with
    | undefined hl hn =>
      cases hl
      exact absurd hn hd.not_undefined
    | routine hl | value hl => cases hl
    | call he hAlso _ =>
      cases hd.unique he
      rw [← Definition.takes_iff.mp hTakes, Definition.takes_iff.mp hAlso]
  | target hd _ =>
    cases hc with
    | undefined hl hn =>
      cases hl
      exact absurd hn hd.not_undefined
    | routine hl | value hl => cases hl
    | target _ _ => rfl
  | returnValue _ | returnVoid _ | breakLoop _ =>
    cases hc with
    | undefined hl | routine hl | value hl => cases hl
    | _ => rfl

/-- A node has at most one diagnostic. -/
theorem Violation.unique {t : Tree} (h : t.WellFormed) {id : NodeId} {d e : Diagnostic}
    (hd : Violation t id d) (he : Violation t id e) : d = e := by
  obtain ⟨place, node, hs, hn, hb, hp⟩ := hd
  obtain ⟨place', node', hs', hn', hc, hq⟩ := he
  rw [hn] at hn'
  cases hn'
  rw [← hs.unique h hs'] at hc
  obtain ⟨cause, position⟩ := d
  obtain ⟨cause', position'⟩ := e
  simp_all only
  rw [hb.unique hc]

end StageScript

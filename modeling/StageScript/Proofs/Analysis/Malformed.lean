import Mathlib
import StageScript.Proofs.Analysis.Halt

/-!
# What an analysis refuses

The analysis of a grounded tree fails for two reasons only: the root is not a block, or the walk
comes to a node that is broken (`NodeKind.Broken`), which has a part that is not there or a name
that stands for what is no definition.  What a walk comes to is told by its course
(`Traversed`); broken nodes that it does not come to do no harm.

What stands on the left of an assignment is walked like any other part.  That it is no target is
not noticed (`analyze_accepts_mistargeted`).
-/

namespace StageScript

/-- The analysis walks the node with the tables of `chain`. -/
def Traversed (t : Tree) (options : Options) (chain : Chain) (id : NodeId) : Prop :=
  ∃ events fault, Analyzed t options events fault ∧ .walk chain id ∈ events

def Stumbles (t : Tree) (options : Options) : Prop :=
  ∃ chain id k, Traversed t options chain id ∧ t.kind? id = some k ∧ k.Broken t options chain

namespace Analyzed

variable {t : Tree} {options : Options} {events : List Event} {fault : Option Diagnostic}

theorem traversed_iff (h : Analyzed t options events fault) {chain : Chain} {id : NodeId} :
    Traversed t options chain id ↔ .walk chain id ∈ events := by
  constructor
  · rintro ⟨others, other, g, hm⟩
    rw [(h.unique g).1] at hm
    exact hm
  · exact fun hm => ⟨events, fault, h, hm⟩

theorem stumbles_iff (h : Analyzed t options events fault) :
    Stumbles t options ↔ WalksBroken t options events := by
  rw [Stumbles, WalksBroken]
  simp only [h.traversed_iff]

/-- An analysis that ends well has a root to start from, and comes to nothing broken. -/
theorem sound_of_none (h : Analyzed t options events none) : t.Rooted ∧ ¬ Stumbles t options := by
  rw [h.stumbles_iff]
  cases h with
  | rooted hRoot hCourse => exact ⟨hRoot, hCourse.whole.2⟩

/-- An analysis that fails has no root, or comes to something broken. -/
theorem unsound_of_some {d : Diagnostic} (h : Analyzed t options events (some d)) :
    ¬ t.Rooted ∨ Stumbles t options := by
  rw [h.stumbles_iff]
  cases h with
  | rooted hRoot hCourse =>
    right
    rcases hCourse.exists_broken with ⟨e, he, hFails⟩ | hBroken
    · -- The root is there, so its walk can start.
      cases List.mem_singleton.mp he
      obtain ⟨stmts, table, hk⟩ := hRoot
      cases hk.symm.trans hFails
    · exact hBroken
  | rootless hNot _ => exact Or.inl hNot

end Analyzed

/-- The analysis of a grounded tree fails, and then with a fault of the tree, if and only if the
root is not a block or a node is walked that has a part which is not there, or a name which stands
for what is no definition.  If it does not fail, its visits of a node are those of its course,
counted in 32 bits. -/
theorem analyze_malformed_iff {t : Tree} (h : t.Grounded) (options : Options) :
    ((∃ reason position, analyze t options = .error ⟨.malformedTree reason, position⟩) ↔
      ¬ t.Rooted ∨ ∃ chain id k, Traversed t options chain id ∧ t.kind? id = some k ∧
        ((∃ c ∈ k.children, t.kind? c = none) ∨ ∃ name ∈ k.lookups options chain, ∃ d,
          (k.scope chain).find? name = some d ∧ ∀ e, t.kind? d ≠ some (.definition e))) ∧
    ((∃ a, analyze t options = .ok a) ∨
      ∃ reason position, analyze t options = .error ⟨.malformedTree reason, position⟩) ∧
    ∀ a, analyze t options = .ok a →
      ∃ events, Analyzed t options events none ∧
        ∀ id, a.visits id = narrow ((walked events).count id) ∧
          (0 < (walked events).count id ↔ ∃ chain, Traversed t options chain id) := by
  obtain ⟨events, fault, hCourse, hEnd⟩ := h.completes options
  cases fault with
  | none =>
    obtain ⟨a, hRun, hVisits, -⟩ := hEnd.ok rfl
    obtain ⟨hRoot, hSound⟩ := hCourse.sound_of_none
    refine ⟨iff_of_false ?_ (not_or.mpr ⟨not_not.mpr hRoot, hSound⟩), Or.inl ⟨a, hRun⟩, ?_⟩
    · rintro ⟨reason, position, hError⟩
      cases hRun.symm.trans hError
    · intro b hb
      cases hRun.symm.trans hb
      refine ⟨events, hCourse, fun id => ⟨hVisits id, ?_⟩⟩
      simp only [hCourse.traversed_iff]
      rw [List.count_pos_iff, mem_walked_iff]
  | some d =>
    have hError := hEnd.error d rfl
    obtain ⟨reason, hCause⟩ := hCourse.fault_malformed
    obtain ⟨cause, position⟩ := d
    cases hCause
    have hFails : ∃ reason position,
        analyze t options = .error ⟨.malformedTree reason, position⟩ := ⟨reason, position, hError⟩
    refine ⟨iff_of_true hFails hCourse.unsound_of_some, Or.inr hFails, fun a ha => ?_⟩
    cases hError.symm.trans ha

/-- A name that stands for the very node that looks it up. -/
def Tree.selfNamed : Tree where
  nodes := #[⟨.ref "x", .ofOffsets "a" 0 1⟩, ⟨.block [0] ⟨[("x", 0)]⟩, .ofOffsets "a" 0 1⟩]
  root := 1

theorem analyze_malformed_iff_selfNamed : Tree.selfNamed.Grounded ∧
    (∃ reason position,
      analyze .selfNamed .standard = .error ⟨.malformedTree reason, position⟩) ∧
    ∃ chain id k, Traversed .selfNamed .standard chain id ∧ Tree.selfNamed.kind? id = some k ∧
      k.Broken .selfNamed .standard chain := by
  have hGround : Tree.selfNamed.Grounded := by decide
  have hFails : ∃ reason position,
      analyze .selfNamed .standard = .error ⟨.malformedTree reason, position⟩ := by
    refine ⟨"node #0 has no definition state", Position.nowhere, ?_⟩
    cbv
  refine ⟨hGround, hFails, ?_⟩
  rcases (analyze_malformed_iff hGround .standard).1.mp hFails with hNot | hBroken
  · exact absurd ⟨[0], ⟨[("x", 0)]⟩, rfl⟩ hNot
  · exact hBroken

/-! ### Assignments -/

def NodeKind.assignee? : NodeKind → Option NodeId
  | assign _ lhs _ => some lhs
  | succ lhs => some lhs
  | pred lhs => some lhs
  | _ => none

def Mistargets (t : Tree) (options : Options) : Prop :=
  ∃ chain id k lhs, Traversed t options chain id ∧ t.kind? id = some k ∧ k.assignee? = some lhs ∧
    ∀ name indices, t.kind? lhs ≠ some (.target name indices)

def Tree.mistargeted : Tree where
  nodes := #[⟨.char 'a', .ofOffsets "a" 0 3⟩, ⟨.char 'b', .ofOffsets "a" 4 7⟩,
    ⟨.assign .assign 0 1, .ofOffsets "a" 0 7⟩, ⟨.block [2] ⟨[]⟩, .ofOffsets "a" 0 7⟩]
  root := 3

/-- Assignments to what is no target are no reason for an analysis to fail. -/
theorem analyze_accepts_mistargeted : ¬ ∀ (t : Tree) (options : Options), t.Grounded →
    ((∃ reason position, analyze t options = .error ⟨.malformedTree reason, position⟩) ↔
      ¬ t.Rooted ∨ Stumbles t options ∨ Mistargets t options) := by
  intro hAll
  have hGround : Tree.mistargeted.Grounded := by decide
  have hRun : (analyze .mistargeted .standard).map (fun a => a.visits 2) = .ok 1 := by
    cbv
  obtain ⟨events, fault, hCourse, hEnd⟩ := hGround.completes .standard
  cases fault with
  | some d =>
    rw [hEnd.error d rfl] at hRun
    cases hRun
  | none =>
    obtain ⟨a, ha, hVisits, -⟩ := hEnd.ok rfl
    rw [ha] at hRun
    have hOnce : narrow ((walked events).count 2) = 1 :=
      (hVisits 2).symm.trans (Except.ok.inj hRun)
    have hSome : 0 < (walked events).count 2 := by
      refine Nat.pos_of_ne_zero fun hNone => ?_
      rw [hNone] at hOnce
      cases hOnce
    obtain ⟨chain, hWalk⟩ := mem_walked_iff.mp (List.count_pos_iff.mp hSome)
    have hMis : Mistargets .mistargeted .standard := by
      refine ⟨chain, 2, .assign .assign 0 1, 0, hCourse.traversed_iff.mpr hWalk, rfl, rfl, ?_⟩
      intro name indices hk
      cases hk
    obtain ⟨reason, position, hError⟩ := (hAll _ _ hGround).mpr (Or.inr (Or.inr hMis))
    cases ha.symm.trans hError

end StageScript

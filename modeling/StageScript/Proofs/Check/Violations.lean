import Mathlib
import StageScript.Proofs.Check.Exact
import StageScript.Proofs.Parse.Script
import StageScript.Token.Scan

/-!
# The faults of a script

The faults that are given for a tree are those that the checks find, put in the order of the
source.  For a well-formed tree they are its violations: one for each node that breaks a
rule, and no other (`Tree.WellFormed.check_violations`).  In particular no fault of the tree
is among them (`Tree.WellFormed.check_not_fatal`).
-/

namespace StageScript

namespace Findings

theorem sorted_perm (f : Findings) : f.sorted.Perm (f.reports ++ f.fatal.toList) :=
  List.mergeSort_perm _ _

/-- The faults come by their offset in the source. -/
theorem sorted_pairwise (f : Findings) :
    f.sorted.Pairwise fun d e => d.position.offset ≤ e.position.offset := by
  have hSorted : f.sorted.Pairwise fun d e =>
      decide (d.position.offset ≤ e.position.offset) = true := by
    refine List.pairwise_mergeSort ?_ ?_ _
    · intro a b c hab hbc
      exact decide_eq_true (Nat.le_trans (of_decide_eq_true hab) (of_decide_eq_true hbc))
    · intro a b
      simpa using Nat.le_total a.position.offset b.position.offset
  exact hSorted.imp of_decide_eq_true

end Findings

theorem Breaks.not_malformed {t : Tree} {place : Place} {k : NodeKind} {cause : Cause}
    (h : Breaks t place k cause) (position : Position) :
    (Diagnostic.mk cause position).isFatal = false := by
  cases h <;> rfl

namespace Tree.WellFormed

variable {t : Tree}

theorem violation_mem (h : t.WellFormed) {id : NodeId} {d : Diagnostic} (hv : Violation t id d) :
    id ∈ subtree t.checked t.root := by
  obtain ⟨place, node, hs, hn, hb, -⟩ := hv
  refine hs.mem_checked h (Tree.kind?_eq_some_iff.mpr ⟨node, hn, rfl⟩) ?_
  cases hk : node.kind with
  | definition e =>
    rw [hk] at hb
    exact nomatch hb.isRuled
  | _ => rfl

/-- The faults are those of the nodes that break a rule, each once. -/
theorem check_violations (h : t.WellFormed) :
    ∃ ids : List NodeId, ids.Nodup ∧ (∀ id, id ∈ ids ↔ ∃ d, Violation t id d) ∧
      List.Forall₂ (Violation t) ids (check t) := by
  obtain ⟨ids, hSub, hAll, hMem⟩ := (exact_root h).reports
  have hPerm : (check t).Perm (Check.root t).reports := by
    have hp := (Check.root t).sorted_perm
    rwa [(exact_root h).fatal, Option.toList_none, List.append_nil] at hp
  -- Sorting the faults sorts the nodes they belong to.
  obtain ⟨sorted, hSorted, hIds⟩ := List.perm_comp_forall₂ hPerm hAll.flip
  refine ⟨sorted, hIds.nodup_iff.mpr ?_, ?_, hSorted.flip⟩
  · exact hSub.nodup (h.checked_branches.subtree_nodup t.root)
  · intro id
    rw [hIds.mem_iff]
    constructor
    · intro hid
      obtain ⟨n, hn, rfl⟩ := List.mem_iff_getElem.mp hid
      exact ⟨_, hAll.get hn (hAll.length_eq ▸ hn)⟩
    · rintro ⟨d, hv⟩
      exact hMem id (h.violation_mem hv) ⟨d, hv⟩

theorem check_not_fatal (h : t.WellFormed) : ∀ d ∈ check t, d.isFatal = false := by
  obtain ⟨ids, -, -, hAll⟩ := h.check_violations
  intro d hd
  obtain ⟨n, hn, rfl⟩ := List.mem_iff_getElem.mp hd
  obtain ⟨place, node, -, -, hb, -⟩ := hAll.get (hAll.length_eq ▸ hn) hn
  exact hb.not_malformed _

end Tree.WellFormed

/-- The faults of a parsed script, in the order of the source, are one for each node that
breaks a rule at the one place where it stands, and no other. -/
theorem check_reports_violations {tokens : List Token} {file : String} {host : Host} {tree : Tree}
    (h : parse tokens file host = .ok tree) :
    (∀ id < tree.size, ∃! place, Stands tree place id) ∧
    (∀ id d e, Violation tree id d → Violation tree id e → d = e) ∧
    (∃ ids : List NodeId, ids.Nodup ∧ (∀ id, id ∈ ids ↔ ∃ d, Violation tree id d) ∧
      List.Forall₂ (Violation tree) ids (check tree)) ∧
    (check tree).Pairwise fun d e => d.position.offset ≤ e.position.offset := by
  have hTree := parse_wellFormed h
  refine ⟨?_, fun id d e hd he => hd.unique hTree he, hTree.check_violations, ?_⟩
  · intro id hid
    obtain ⟨place, hs⟩ := hTree.exists_place hid
    exact ⟨place, hs, fun q hq => hq.unique hTree hs⟩
  · exact Findings.sorted_pairwise _

/-- A script that breaks every rule. -/
theorem check_reports_violations_all : ∃ tokens tree,
    tokenize "let y=g; h(1); g=x; break; return; return y(1); sub g \x7b\x7d task h \x7b\x7d" "a" =
      .ok tokens ∧
    parse tokens "a" Host.empty = .ok tree ∧
    check tree = [⟨.routineInExpression "g", ⟨6, "a"⟩⟩, ⟨.wrongArgumentCount "h" 0 1, ⟨9, "a"⟩⟩,
      ⟨.assignToNonVariable "g", ⟨15, "a"⟩⟩, ⟨.undefinedName "x", ⟨17, "a"⟩⟩,
      ⟨.breakOutsideLoop, ⟨20, "a"⟩⟩, ⟨.returnOutsideRoutine, ⟨27, "a"⟩⟩,
      ⟨.returnValueOutsideFunction, ⟨35, "a"⟩⟩, ⟨.wrongArgumentCount "y" 0 1, ⟨42, "a"⟩⟩] ∧
    ∃ ids : List NodeId, ids.Nodup ∧ (∀ id, id ∈ ids ↔ ∃ d, Violation tree id d) ∧
      List.Forall₂ (Violation tree) ids (check tree) := by
  have hRun : (do
      let tokens ← tokenize
        "let y=g; h(1); g=x; break; return; return y(1); sub g \x7b\x7d task h \x7b\x7d" "a"
      let tree ← parse tokens "a" Host.empty
      pure (check tree)) = Except.ok [⟨.routineInExpression "g", ⟨6, "a"⟩⟩,
        ⟨.wrongArgumentCount "h" 0 1, ⟨9, "a"⟩⟩, ⟨.assignToNonVariable "g", ⟨15, "a"⟩⟩,
        ⟨.undefinedName "x", ⟨17, "a"⟩⟩, ⟨.breakOutsideLoop, ⟨20, "a"⟩⟩,
        ⟨.returnOutsideRoutine, ⟨27, "a"⟩⟩, ⟨.returnValueOutsideFunction, ⟨35, "a"⟩⟩,
        ⟨.wrongArgumentCount "y" 0 1, ⟨42, "a"⟩⟩] := by
    cbv
  obtain ⟨tokens, hTokens, hRun⟩ := exists_of_bind_eq_ok hRun
  obtain ⟨tree, hTree, hCheck⟩ := exists_of_bind_eq_ok hRun
  exact ⟨tokens, tree, hTokens, hTree, Except.ok.inj hCheck,
    (check_reports_violations hTree).2.2.1⟩

end StageScript

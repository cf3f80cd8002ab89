import Mathlib
import StageScript.Proofs.Analysis.Walk
import StageScript.Proofs.Parse.Script
import StageScript.Token.Scan

/-!
# What an analysis reaches

An analysis of a well-formed tree ends (`analyze_walked`) and reaches exactly what is live:
the definitions it marks are the live ones (`Whole.reached_iff`), and the nodes it visits are
the live nodes, each once (`Whole.visits_node`, `Whole.visits_definition`).  A definition is
visited once when it is reached and once more when it is a statement of a live block.
-/

namespace StageScript

noncomputable def tally (p : Prop) : Nat := @ite Nat p (Classical.propDecidable p) 1 0

theorem tally_of {p : Prop} (h : p) : tally p = 1 := if_pos h

theorem tally_of_not {p : Prop} (h : ¬ p) : tally p = 0 := if_neg h

theorem tally_le_one (p : Prop) : tally p ≤ 1 := by
  by_cases h : p
  · rw [tally_of h]
  · rw [tally_of_not h]
    exact Nat.zero_le 1

theorem count_eq_tally {ids : List NodeId} (h : ids.Nodup) (n : NodeId) :
    ids.count n = tally (n ∈ ids) := by
  by_cases hn : n ∈ ids
  · rw [List.count_eq_one_of_mem h hn, tally_of hn]
  · rw [List.count_eq_zero_of_not_mem hn, tally_of_not hn]

/-! ### Before the analysis -/

namespace Annotations

variable {t : Tree} {id : NodeId}

theorem get?_ofTree (t : Tree) (id : NodeId) :
    (ofTree t).get? id = (t.get? id).map initial := by
  simp [ofTree, get?, Tree.get?]

theorem initial_cases (node : Node) :
    (initial node).visits = 0 ∧
      (node.kind.isDefinition = true → ∃ s, (initial node).state = some s ∧ s.unreachable = true) ∧
      (node.kind.isDefinition = false → (initial node).state = none ∧
        (initial node).note = Note.unknown) := by
  obtain ⟨kind, span⟩ := node
  cases kind with
  | definition d => cases d <;> simp [initial, NodeKind.isDefinition]
  | _ => simp [initial, NodeKind.isDefinition]

theorem visits_ofTree (t : Tree) (id : NodeId) : (ofTree t).visits id = 0 := by
  rw [visits, get?_ofTree]
  cases t.get? id with
  | none => rfl
  | some node => exact (initial_cases node).1

theorem carries_ofTree (t : Tree) : t.Carries (ofTree t) := by
  refine ⟨fun id k hk => ?_, fun n => visits_ofTree t n ▸ Nat.two_pow_pos 32⟩
  obtain ⟨node, hn, rfl⟩ := Tree.kind?_eq_some_iff.mp hk
  refine ⟨initial node, by rw [get?_ofTree, hn]; rfl, fun hd => ?_⟩
  obtain ⟨s, hs, -⟩ := (initial_cases node).2.1 hd
  exact ⟨s, hs⟩

theorem isReachable_ofTree (t : Tree) (id : NodeId) : (ofTree t).isReachable id = false := by
  rw [isReachable, state?, get?_ofTree]
  cases t.get? id with
  | none => rfl
  | some node =>
    obtain ⟨-, hDef, hPlain⟩ := initial_cases node
    cases hd : node.kind.isDefinition with
    | false => simp [(hPlain hd).1]
    | true =>
      obtain ⟨s, hs, hu⟩ := hDef hd
      simp [hs, hu]

theorem note?_ofTree {k : NodeKind} (hk : t.kind? id = some k) (hd : k.isDefinition = false) :
    (ofTree t).note? id = some Note.unknown := by
  obtain ⟨node, hn, rfl⟩ := Tree.kind?_eq_some_iff.mp hk
  rw [note?, get?_ofTree, hn]
  exact congrArg some ((initial_cases node).2.2 hd).2

end Annotations

/-! ### The whole walk -/

/-- The analysis of a well-formed tree ends, and leaves the trail of the root. -/
theorem analyze_walked {t : Tree} (h : t.WellFormed) (options : Options) :
    ∃ a fresh, analyze t options = .ok a ∧
      Walked t options [] (subtree t.partsOf t.root) fresh (Annotations.ofTree t) a := by
  obtain ⟨stmts, table, hk⟩ := h.root_block
  obtain ⟨⟨kind, span⟩, hn, hKind⟩ := Tree.kind?_eq_some_iff.mp hk
  cases hKind
  have hReady : Ready t (t.definitions.length * (t.size + 1)) (Annotations.ofTree t) := by
    refine ⟨Annotations.carries_ofTree t, Nat.mul_le_mul_right _ ?_⟩
    exact Nat.le_trans List.countP_le_length (Nat.le_of_eq (List.length_map _))
  have hRoom : t.definitions.length * (t.size + 1) + t.root < Analysis.maxDepth t + 1 := by
    rw [Analysis.maxDepth, Nat.succ_mul]
    exact Nat.lt_succ_of_lt
      (Nat.add_lt_add_left (Nat.lt_succ_of_lt (Tree.lt_size_of_kind? hk)) _)
  obtain ⟨r, a, fresh, hRun, hw, -⟩ :=
    Analysis.runs_nodeWith h (Analysis.sound_walkAt h (Analysis.maxDepth t)) .root (.root h options) hReady
      hRoom
  refine ⟨a, fresh, ?_, hw⟩
  have hBlock : Analysis.block t options (Analysis.walkAt t options (Analysis.maxDepth t)) [] t.root
      ((Annotations.ofTree t).visit t.root) = .ok (r, a) := by
    rw [Analysis.nodeWith, Analysis.lift_bind (Tree.node_of_get? hn)] at hRun
    exact hRun
  rw [analyze]
  dsimp only
  rw [hBlock]
  rfl

/-! ### Every definition and every node -/

theorem Live.kind_definition {t : Tree} (h : t.WellFormed) {options : Options} {m : Mark}
    (hl : Live t options m) : ∀ d, m = .definition d → ∃ e, t.kind? d = some (.definition e) := by
  cases hl with
  | entry hr _ hf =>
    rintro d ⟨⟩
    exact h.entry_definition hr (List.mem_map.mpr ⟨_, NameTable.mem_of_find? hf, rfl⟩)
  | used _ _ _ hs hf =>
    rintro d ⟨⟩
    exact hs.find?_definition h hf
  | root => exact nofun
  | part _ _ _ _ => exact nofun
  | body _ _ _ => exact nofun

def LiveStatement (t : Tree) (options : Options) (n : NodeId) : Prop :=
  ∃ b stmts table, Live t options (.node b) ∧ t.kind? b = some (.block stmts table) ∧ n ∈ stmts

structure Whole (t : Tree) (options : Options) (fresh : List NodeId) (a : Annotations) : Prop where
  tree : t.WellFormed
  walked : Walked t options [] (subtree t.partsOf t.root) fresh (Annotations.ofTree t) a

namespace Whole

variable {t : Tree} {options : Options} {fresh : List NodeId} {a : Annotations}

theorem isReachable_iff_mem (h : Whole t options fresh a) (d : NodeId) :
    a.isReachable d = true ↔ d ∈ fresh := by
  rw [h.walked.reached, Annotations.isReachable_ofTree]
  simp

theorem definition_of_mem (h : Whole t options fresh a) {d : NodeId} (hd : d ∈ fresh) :
    ∃ e, t.kind? d = some (.definition e) :=
  (h.walked.live d hd).kind_definition h.tree d rfl

/-- Everything live is on the trail, and every live definition is reached. -/
theorem of_live (h : Whole t options fresh a) {m : Mark} (hl : Live t options m) :
    (∀ n, m = .node n → n ∈ t.trail (subtree t.partsOf t.root) fresh) ∧
      ∀ d, m = .definition d → d ∈ fresh := by
  have hFalls := h.tree.partsOf_falls
  have hSettled : ∀ {n d}, n ∈ t.trail (subtree t.partsOf t.root) fresh → Refers t options n d →
      d ∈ fresh := fun hn hr =>
    (h.isReachable_iff_mem _).mp (h.walked.settled _ hn List.not_mem_nil _ hr)
  have hRoot : t.root ∈ t.trail (subtree t.partsOf t.root) fresh :=
    List.mem_append_left _ (hFalls.self_mem _)
  induction hl with
  | root =>
    refine ⟨?_, nofun⟩
    rintro n ⟨⟩
    exact hRoot
  | entry hr hName hf =>
    refine ⟨nofun, ?_⟩
    rintro d ⟨⟩
    exact hSettled hRoot (.entry hr hName hf)
  | @part n c k _ hk _ hc ih =>
    refine ⟨?_, nofun⟩
    rintro c' ⟨⟩
    have hKid : c ∈ t.partsOf n := Tree.mem_partsOf_iff.mpr ⟨k, hk, hc⟩
    rcases List.mem_append.mp (ih.1 n rfl) with hn | hn
    · exact List.mem_append_left _ (hFalls.kid_mem hKid hn)
    · obtain ⟨d, hd, hn⟩ := List.mem_flatMap.mp hn
      exact List.mem_append_right _ (List.mem_flatMap.mpr ⟨d, hd, hFalls.kid_mem hKid hn⟩)
  | used _ hk hu hs hf ih =>
    refine ⟨nofun, ?_⟩
    rintro d ⟨⟩
    exact hSettled (ih.1 _ rfl) (.used hk hu hs hf)
  | @body d b e _ hk hb ih =>
    refine ⟨?_, nofun⟩
    rintro n ⟨⟩
    have hKid : b ∈ t.partsOf d := Tree.mem_partsOf_iff.mpr ⟨_, hk, by simp [NodeKind.children, hb]⟩
    refine List.mem_append_right _ (List.mem_flatMap.mpr ⟨d, ih.2 d rfl, ?_⟩)
    exact hFalls.kid_mem hKid (hFalls.self_mem d)

/-- The definitions that are reached are the live ones. -/
theorem mem_fresh_iff (h : Whole t options fresh a) (d : NodeId) :
    d ∈ fresh ↔ Live t options (.definition d) :=
  ⟨h.walked.live d, fun hl => (h.of_live hl).2 d rfl⟩

theorem reached_iff (h : Whole t options fresh a) (d : NodeId) :
    a.isReachable d = true ↔ Live t options (.definition d) :=
  (h.isReachable_iff_mem d).trans (h.mem_fresh_iff d)

/-! ### How often -/

/-- A definition without body has nothing below it. -/
theorem subtree_of_bodyless (h : t.WellFormed) {d : NodeId} {e : Definition}
    (hd : t.kind? d = some (.definition e)) (hb : t.bodyOf? d = none) :
    subtree t.partsOf d = [d] := by
  rw [Tree.bodyOf?_of_kind? hd] at hb
  rw [h.partsOf_falls.subtree_eq, Tree.partsOf_of_kind? hd, NodeKind.children, hb]
  rfl

/-- The root and the callables that are reached: nothing of the trail is above them. -/
def tops (t : Tree) (fresh : List NodeId) : List NodeId :=
  t.root :: fresh.filter fun d => (t.bodyOf? d).isSome

theorem count_trail (h : Whole t options fresh a) (n : NodeId) :
    (t.trail (subtree t.partsOf t.root) fresh).count n =
      ((tops t fresh).flatMap (subtree t.partsOf)).count n +
        (fresh.filter fun d => (t.bodyOf? d).isNone).count n := by
  have hFresh : ∀ ds : List NodeId, (∀ d ∈ ds, d ∈ fresh) →
      (ds.flatMap (subtree t.partsOf)).count n =
        ((ds.filter fun d => (t.bodyOf? d).isSome).flatMap (subtree t.partsOf)).count n +
          (ds.filter fun d => (t.bodyOf? d).isNone).count n := by
    intro ds
    induction ds with
    | nil => exact fun _ => rfl
    | cons d ds ih =>
      intro hds
      have hRest := ih fun x hx => hds x (List.mem_cons_of_mem d hx)
      obtain ⟨e, he⟩ := h.definition_of_mem (hds d List.mem_cons_self)
      cases hb : t.bodyOf? d with
      | some b =>
        simp only [List.flatMap_cons, List.count_append, hRest, List.filter_cons, hb,
          Option.isSome_some, Option.isNone_some, if_true, Bool.false_eq_true, if_false]
        omega
      | none =>
        simp only [List.flatMap_cons, List.count_append, hRest, List.filter_cons, hb,
          Option.isSome_none, Option.isNone_none, if_true, Bool.false_eq_true, if_false,
          subtree_of_bodyless h.tree he hb, List.count_cons, List.count_nil]
        omega
  rw [Tree.trail, List.count_append, hFresh fresh fun _ hd => hd, tops, List.flatMap_cons,
    List.count_append]
  omega

theorem not_part_of_tops (h : Whole t options fresh a) {x : NodeId} (hx : x ∈ tops t fresh)
    (j : NodeId) : x ∉ t.partsOf j := by
  rcases List.mem_cons.mp hx with rfl | hx
  · intro hj
    obtain ⟨k, hk, hj⟩ := Tree.mem_partsOf_iff.mp hj
    exact Nat.lt_irrefl _ (h.tree.child_lt_root hk hj)
  · obtain ⟨b, hb⟩ := Option.isSome_iff_exists.mp (List.mem_filter.mp hx).2
    exact h.tree.callable_not_part hb j

theorem tops_nodup (h : Whole t options fresh a) : (tops t fresh).Nodup := by
  refine List.nodup_cons.mpr ⟨fun hr => ?_, h.walked.nodup.filter _⟩
  obtain ⟨e, he⟩ := h.definition_of_mem (List.mem_filter.mp hr).1
  obtain ⟨stmts, table, hBlock⟩ := h.tree.root_block
  rw [he] at hBlock
  cases hBlock

theorem flatMap_tops_nodup (h : Whole t options fresh a) :
    ((tops t fresh).flatMap (subtree t.partsOf)).Nodup := by
  have hBranches := h.tree.partsOf_branches
  refine List.nodup_flatMap.mpr ⟨fun x _ => hBranches.subtree_nodup x, ?_⟩
  refine h.tops_nodup.pairwise_of_forall_ne fun x hx y hy hne => ?_
  intro n hnx hny
  exact hne (hBranches.eq_of_tops (h.not_part_of_tops hx) (h.not_part_of_tops hy) hnx hny)

theorem count_trail_tally (h : Whole t options fresh a) (n : NodeId) :
    (t.trail (subtree t.partsOf t.root) fresh).count n =
      tally (n ∈ (tops t fresh).flatMap (subtree t.partsOf)) +
        tally (n ∈ fresh.filter fun d => (t.bodyOf? d).isNone) := by
  rw [h.count_trail, count_eq_tally h.flatMap_tops_nodup,
    count_eq_tally (h.walked.nodup.filter _)]

/-- No node is visited so often that its counter wraps around. -/
theorem visits_eq_count (h : Whole t options fresh a) (n : NodeId) :
    a.visits n = (t.trail (subtree t.partsOf t.root) fresh).count n := by
  rw [h.walked.visits, Annotations.visits_ofTree, Nat.zero_add]
  refine narrow_of_lt ?_
  have hFirst := tally_le_one (n ∈ (tops t fresh).flatMap (subtree t.partsOf))
  have hSecond := tally_le_one (n ∈ fresh.filter fun d => (t.bodyOf? d).isNone)
  rw [h.count_trail_tally]
  exact Nat.lt_of_le_of_lt (Nat.add_le_add hFirst hSecond) (by decide)

theorem visits_eq (h : Whole t options fresh a) (n : NodeId) :
    a.visits n = tally (n ∈ (tops t fresh).flatMap (subtree t.partsOf)) +
      tally (n ∈ fresh.filter fun d => (t.bodyOf? d).isNone) := by
  rw [h.visits_eq_count, h.count_trail_tally]

/-- The nodes below the root and the reached callables are the live ones. -/
theorem mem_tops_iff_live (h : Whole t options fresh a) {n : NodeId} {k : NodeKind}
    (hk : t.kind? n = some k) (hd : k.isDefinition = false) :
    n ∈ (tops t fresh).flatMap (subtree t.partsOf) ↔ Live t options (.node n) := by
  constructor
  · intro hn
    obtain ⟨x, hx, hn⟩ := List.mem_flatMap.mp hn
    refine (Alive.below h.tree ?_ n hn).node k hk hd
    rcases List.mem_cons.mp hx with rfl | hx
    · exact .root h.tree options
    · have hFresh := (List.mem_filter.mp hx).1
      obtain ⟨e, he⟩ := h.definition_of_mem hFresh
      exact .of_live_definition he (h.walked.live x hFresh)
  · intro hl
    rcases List.mem_append.mp ((h.of_live hl).1 n rfl) with hn | hn
    · exact List.mem_flatMap.mpr ⟨t.root, List.mem_cons_self, hn⟩
    · obtain ⟨d, hFresh, hn⟩ := List.mem_flatMap.mp hn
      refine List.mem_flatMap.mpr ⟨d, List.mem_cons_of_mem _ (List.mem_filter.mpr ⟨hFresh, ?_⟩), hn⟩
      obtain ⟨e, he⟩ := h.definition_of_mem hFresh
      cases hb : t.bodyOf? d with
      | some b => rfl
      | none =>
        rw [subtree_of_bodyless h.tree he hb, List.mem_singleton] at hn
        rw [hn, he] at hk
        cases hk
        cases hd

theorem visits_node (h : Whole t options fresh a) {n : NodeId} {k : NodeKind}
    (hk : t.kind? n = some k) (hd : k.isDefinition = false) :
    a.visits n = tally (Live t options (.node n)) := by
  have hOther : n ∉ fresh.filter fun d => (t.bodyOf? d).isNone := by
    intro hn
    obtain ⟨e, he⟩ := h.definition_of_mem (List.mem_filter.mp hn).1
    rw [he] at hk
    cases hk
    cases hd
  rw [h.visits_eq, tally_of_not hOther, Nat.add_zero, propext (h.mem_tops_iff_live hk hd)]

/-- A callable is below the root and the reached callables only if it is one of them. -/
theorem mem_tops_iff_callable (h : Whole t options fresh a) {n b : NodeId}
    (hb : t.bodyOf? n = some b) :
    n ∈ (tops t fresh).flatMap (subtree t.partsOf) ↔ n ∈ fresh := by
  have hFalls := h.tree.partsOf_falls
  constructor
  · intro hn
    obtain ⟨x, hx, hn⟩ := List.mem_flatMap.mp hn
    by_cases he : n = x
    · subst he
      rcases List.mem_cons.mp hx with rfl | hx
      · obtain ⟨stmts, table, hr⟩ := h.tree.root_block
        obtain ⟨e, he, -⟩ := Tree.bodyOf?_eq_some_iff.mp hb
        rw [hr] at he
        cases he
      · exact (List.mem_filter.mp hx).1
    · obtain ⟨j, -, hj⟩ := hFalls.exists_above hn he
      exact absurd hj (h.tree.callable_not_part hb j)
  · intro hn
    refine List.mem_flatMap.mpr ⟨n, List.mem_cons_of_mem _ (List.mem_filter.mpr ⟨hn, ?_⟩),
      hFalls.self_mem n⟩
    rw [hb]
    rfl

/-- A definition without body is below the root and the reached callables only as a
statement. -/
theorem mem_tops_iff_statement (h : Whole t options fresh a) {n : NodeId} {e : Definition}
    (hk : t.kind? n = some (.definition e)) (hb : t.bodyOf? n = none) :
    n ∈ (tops t fresh).flatMap (subtree t.partsOf) ↔ LiveStatement t options n := by
  have hFalls := h.tree.partsOf_falls
  constructor
  · intro hn
    obtain ⟨x, hx, hn⟩ := List.mem_flatMap.mp hn
    have hne : n ≠ x := by
      rintro rfl
      rcases List.mem_cons.mp hx with rfl | hx
      · obtain ⟨stmts, table, hr⟩ := h.tree.root_block
        rw [hr] at hk
        cases hk
      · simp [List.mem_filter, hb] at hx
    obtain ⟨j, hj, hp⟩ := hFalls.exists_above hn hne
    obtain ⟨l, hl, hc⟩ := Tree.mem_partsOf_iff.mp hp
    have hEntry := h.tree.child_entry hl hc hk
    cases l with
    | block stmts table =>
      refine ⟨j, stmts, table, ?_, hl, hc⟩
      exact (h.mem_tops_iff_live hl rfl).mp (List.mem_flatMap.mpr ⟨x, hx, hj⟩)
    | _ => cases hEntry
  · rintro ⟨j, stmts, table, hLive, hl, hc⟩
    obtain ⟨x, hx, hj⟩ := List.mem_flatMap.mp ((h.mem_tops_iff_live hl rfl).mpr hLive)
    exact List.mem_flatMap.mpr ⟨x, hx, hFalls.kid_mem (Tree.mem_partsOf_iff.mpr ⟨_, hl, hc⟩) hj⟩

theorem visits_definition (h : Whole t options fresh a) {n : NodeId} {e : Definition}
    (hk : t.kind? n = some (.definition e)) :
    a.visits n = tally (Live t options (.definition n)) + tally (LiveStatement t options n) := by
  rw [h.visits_eq, ← propext (h.mem_fresh_iff n)]
  cases hb : t.bodyOf? n with
  | some b =>
    have hStatement : ¬ LiveStatement t options n := by
      rintro ⟨j, stmts, table, -, hl, hc⟩
      exact h.tree.callable_not_part hb j (Tree.mem_partsOf_iff.mpr ⟨_, hl, hc⟩)
    have hOther : n ∉ fresh.filter fun d => (t.bodyOf? d).isNone := by
      simp [List.mem_filter, hb]
    rw [propext (h.mem_tops_iff_callable hb), tally_of_not hStatement, tally_of_not hOther]
  | none =>
    have hOther : (n ∈ fresh.filter fun d => (t.bodyOf? d).isNone) ↔ n ∈ fresh := by
      simp [List.mem_filter, hb]
    rw [propext (h.mem_tops_iff_statement hk hb), propext hOther, Nat.add_comm]

theorem note_of_not_live (h : Whole t options fresh a) {n : NodeId} {k : NodeKind}
    (hk : t.kind? n = some k) (hd : k.isDefinition = false) (hl : ¬ Live t options (.node n)) :
    a.note? n = some Note.unknown := by
  rw [← Annotations.note?_ofTree hk hd]
  refine h.walked.notes n List.not_mem_nil fun hn => ?_
  have hVisits := h.visits_eq_count n
  rw [h.visits_node hk hd, tally_of_not hl] at hVisits
  exact List.count_eq_zero.mp hVisits.symm hn

theorem exists_state (h : Whole t options fresh a) {id : NodeId} {d : Definition}
    (hk : t.kind? id = some (.definition d)) :
    ∃ s, a.state? id = some s ∧
      (s.unreachable = false ↔ Live t options (.definition id)) := by
  obtain ⟨e, he, hState⟩ := h.walked.carries.entry id _ hk
  obtain ⟨s, hs⟩ := hState rfl
  have hFound : a.state? id = some s := by rw [Annotations.state?, he]; exact hs
  refine ⟨s, hFound, ?_⟩
  rw [← h.reached_iff, Annotations.isReachable, hFound]
  simp

/-- The unreachable definitions are the callables that are not live. -/
theorem mem_unreachable_iff (h : Whole t options fresh a) (id : NodeId) :
    id ∈ a.unreachableDefinitions t ↔ ∃ d, t.kind? id = some (.definition d) ∧
      d.body?.isSome = true ∧ ¬ Live t options (.definition id) := by
  rw [Annotations.unreachableDefinitions, List.mem_filterMap]
  constructor
  · rintro ⟨⟨i, d⟩, hm, hi⟩
    have hk := Tree.mem_definitions_iff.mp hm
    obtain ⟨s, hs, hLive⟩ := h.exists_state hk
    simp only [hs] at hi
    split at hi
    · rename_i hBoth
      cases hi
      rw [Bool.and_eq_true] at hBoth
      refine ⟨d, hk, hBoth.1, fun hl => ?_⟩
      rw [hLive.mpr hl] at hBoth
      cases hBoth.2
    · cases hi
  · rintro ⟨d, hk, hb, hl⟩
    obtain ⟨s, hs, hLive⟩ := h.exists_state hk
    refine ⟨(id, d), Tree.mem_definitions_iff.mpr hk, ?_⟩
    have hu : s.unreachable = true := by
      cases hu : s.unreachable with
      | true => rfl
      | false => exact absurd (hLive.mp hu) hl
    simp [hs, hb, hu]

end Whole

theorem unreachableDefinitions_pairwise (t : Tree) (a : Annotations) :
    (a.unreachableDefinitions t).Pairwise (· < ·) := by
  rw [Annotations.unreachableDefinitions, List.pairwise_filterMap]
  refine t.definitions_pairwise.imp ?_
  rintro ⟨i, d⟩ ⟨j, e⟩ hlt x hx y hy
  have hi : i = x := by grind
  have hj : j = y := by grind
  exact hi ▸ hj ▸ hlt

/-- What an analysis of a parsed script reaches is the least that the root block and the
entry routines lead to, and nothing is walked twice. -/
theorem analyze_reaches_live {tokens : List Token} {file : String} {host : Host} {tree : Tree}
    (h : parse tokens file host = .ok tree) (options : Options) :
    ∃ a, analyze tree options = .ok a ∧
      (∀ id d, tree.kind? id = some (.definition d) →
        (∃ s, a.state? id = some s ∧
          (s.unreachable = false ↔ Live tree options (.definition id))) ∧
        a.visits id = tally (Live tree options (.definition id)) +
          tally (LiveStatement tree options id)) ∧
      (∀ id k, tree.kind? id = some k → k.isDefinition = false →
        a.visits id = tally (Live tree options (.node id)) ∧
        (¬ Live tree options (.node id) → a.note? id = some Note.unknown)) ∧
      (a.unreachableDefinitions tree).Pairwise (· < ·) ∧
      ∀ id, id ∈ a.unreachableDefinitions tree ↔ ∃ d, tree.kind? id = some (.definition d) ∧
        d.body?.isSome = true ∧ ¬ Live tree options (.definition id) := by
  have hTree := parse_wellFormed h
  obtain ⟨a, fresh, hRun, hWalked⟩ := analyze_walked hTree options
  have hWhole : Whole tree options fresh a := ⟨hTree, hWalked⟩
  refine ⟨a, hRun, ?_, ?_, unreachableDefinitions_pairwise tree a, hWhole.mem_unreachable_iff⟩
  · exact fun id d hk => ⟨hWhole.exists_state hk, hWhole.visits_definition hk⟩
  · exact fun id k hk hd => ⟨hWhole.visits_node hk hd, hWhole.note_of_not_live hk hd⟩

/-- The host starts a routine that calls a function; a routine that only calls itself is not
live. -/
theorem analyze_reaches_live_entry : ∃ tokens tree a,
    tokenize "let x; @go \x7b f(1); \x7d function f(y) \x7b \x7d sub g \x7b g(); \x7d" "a" = .ok tokens ∧
    parse tokens "a" Host.empty = .ok tree ∧ analyze tree ⟨["go"], false⟩ = .ok a ∧
    (List.range tree.size).map a.visits = [1, 1, 1, 1, 1, 0, 0, 1, 1, 0, 0, 0, 1] ∧
    a.unreachableDefinitions tree = [11] ∧ ¬ Live tree ⟨["go"], false⟩ (.definition 11) := by
  have hRun : (do
      let tokens ←
        tokenize "let x; @go \x7b f(1); \x7d function f(y) \x7b \x7d sub g \x7b g(); \x7d" "a"
      let tree ← parse tokens "a" Host.empty
      let a ← analyze tree ⟨["go"], false⟩
      pure ((List.range tree.size).map a.visits, a.unreachableDefinitions tree)) =
        Except.ok ([1, 1, 1, 1, 1, 0, 0, 1, 1, 0, 0, 0, 1], [11]) := by
    cbv
  obtain ⟨tokens, hTokens, hRun⟩ := exists_of_bind_eq_ok hRun
  obtain ⟨tree, hTree, hRun⟩ := exists_of_bind_eq_ok hRun
  obtain ⟨a, hAnalyze, hRun⟩ := exists_of_bind_eq_ok hRun
  obtain ⟨hVisits, hUnreachable⟩ := Prod.mk.inj (Except.ok.inj hRun)
  obtain ⟨b, hSame, -, -, -, hMem⟩ := analyze_reaches_live hTree ⟨["go"], false⟩
  rw [hAnalyze] at hSame
  cases hSame
  obtain ⟨d, -, -, hLive⟩ := (hMem 11).mp (by rw [hUnreachable]; exact List.mem_cons_self)
  exact ⟨tokens, tree, a, hTokens, hTree, hAnalyze, hVisits, hUnreachable, hLive⟩

end StageScript

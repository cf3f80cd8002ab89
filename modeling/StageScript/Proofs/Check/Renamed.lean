import Mathlib
import StageScript.Proofs.Check.Violations
import StageScript.Proofs.Tree.Renamed

/-!
# Checks of trees that differ in their numbers

A node of the first tree and its counterpart in the second stand at the same place
(`Stands.exists_renamed`), so they break the same rules (`Tree.Renamed.violation_iff`).  If no two
nodes that break rules begin at one place, the faults come in the same order too
(`Tree.Renamed.check_eq`).
-/

namespace StageScript

variable {f : Equiv.Perm NodeId} {t u : Tree}

/-! ### Places -/

structure Place.Renamed (f : NodeId → NodeId) (p q : Place) : Prop where
  chain : p.chain.Renamed f q.chain
  callable : q.callable = p.callable.map (Definition.renumber f)
  looped : q.looped = p.looped

theorem NodeKind.loopBody?_renumber {f : NodeId → NodeId} (k : NodeKind) :
    (k.renumber f).loopBody? = k.loopBody?.map f := by
  cases k <;> rfl

namespace Place.Renamed

variable {p q : Place}

theorem inside (h : p.Renamed f q) {table table' : NameTable} (ht : table.Renamed f table') :
    (p.inside table).Renamed f (q.inside table') :=
  ⟨.cons ht h.chain, h.callable, h.looped⟩

theorem part (h : p.Renamed f q) {k : NodeKind} (hk : ∀ stmts table, k ≠ .block stmts table)
    (c : NodeId) : (p.part k c).Renamed f (q.part (k.renumber f) (f c)) := by
  have hLoop : (k.renumber f).loopBody? = some (f c) ↔ k.loopBody? = some c := by
    rw [NodeKind.loopBody?_renumber, Option.map_eq_some_iff]
    constructor
    · rintro ⟨b, hb, he⟩
      rw [hb, f.injective he]
    · exact fun hb => ⟨c, hb, rfl⟩
  have hOther : (if k.loopBody? = some c then { p with looped := true } else p).Renamed f
      (if (k.renumber f).loopBody? = some (f c) then { q with looped := true } else q) := by
    simp only [hLoop]
    split
    · exact ⟨h.chain, h.callable, rfl⟩
    · exact h
  cases k with
  | block stmts table => exact absurd rfl (hk stmts table)
  | definition d => exact ⟨h.chain, rfl, rfl⟩
  | _ => exact hOther

end Place.Renamed

/-- The counterpart of a node stands at the same place. -/
theorem Stands.exists_renamed (h : t.Renamed f u) (hTree : t.WellFormed) {place : Place}
    {id : NodeId} (hs : Stands t place id) :
    ∃ place', Stands u place' (f id) ∧ place.Renamed f place' := by
  induction hs with
  | root =>
    refine ⟨Place.outermost, ?_, .nil, rfl, rfl⟩
    rw [← h.root]
    exact .root
  | @part place n c k hn hk hc ih =>
    obtain ⟨place', hs', hPlace⟩ := ih
    obtain ⟨l, hl, hKind⟩ := h.kind? hk
    have hc' : f c ∈ k.children.map f := List.mem_map_of_mem hc
    rcases hKind.of_renumber with ⟨stmts, table, table', rfl, rfl, hPerm⟩ | ⟨hb, rfl⟩
    · refine ⟨_, .part hs' hl hc', hPlace.inside ⟨(hTree.fits n _ hk).names_nodup, hPerm⟩⟩
    · rw [← NodeKind.children_renumber] at hc'
      exact ⟨_, .part hs' hl hc', hPlace.part hb c⟩
  | @entry place b d stmts table hb hk hd ih =>
    obtain ⟨place', hs', hPlace⟩ := ih
    obtain ⟨table', hk', hTable⟩ := h.kind?_block hTree hk
    refine ⟨_, .entry hs' hk' ?_, hPlace.inside hTable⟩
    obtain ⟨e, he, rfl⟩ := List.mem_map.mp hd
    have hEntry : (e.1, f e.2) ∈ (table.renumber f).entries :=
      List.mem_map.mpr ⟨e, he, rfl⟩
    exact List.mem_map.mpr ⟨_, hTable.perm.subset hEntry, rfl⟩

/-! ### Rules -/

theorem NodeKind.named?_renumber {f : NodeId → NodeId} (k : NodeKind) :
    (k.renumber f).named? = k.named? := by
  cases k <;> rfl

theorem NodeKind.valued?_renumber {f : NodeId → NodeId} (k : NodeKind) :
    (k.renumber f).valued? = k.valued? := by
  cases k <;> simp [renumber, valued?]

theorem Resolves.renamed (h : t.Renamed f u) {chain chain' : Chain} (hc : chain.Renamed f chain')
    {name : String} {d : Definition} (hd : Resolves t chain name d) :
    Resolves u chain' name (d.renumber f) := by
  obtain ⟨id, hFind, hk⟩ := hd
  refine ⟨f id, ?_, h.kind?_definition hk⟩
  rw [hc.find? name, hFind]
  rfl

theorem Breaks.renamed (h : t.Renamed f u) {place place' : Place} (hp : place.Renamed f place')
    {k : NodeKind} {c : Cause} (hb : Breaks t place k c) : Breaks u place' (k.renumber f) c := by
  cases hb with
  | undefined hk hn =>
    refine .undefined ((NodeKind.named?_renumber _).trans hk) (Chain.find?_eq_none_iff.mp ?_)
    rw [hp.chain.find?, Chain.find?_eq_none_iff.mpr hn]
    rfl
  | routine hk hd hr =>
    refine .routine ((NodeKind.valued?_renumber _).trans hk) (hd.renamed h hp.chain) ?_
    rwa [Definition.valueless_iff, Definition.isRoutine_renumber, ← Definition.valueless_iff]
  | value hk hd hv hTakes ha =>
    refine .value ((NodeKind.valued?_renumber _).trans hk) (hd.renamed h hp.chain) ?_ ?_ ha
    · rwa [Definition.valueless_iff, Definition.isRoutine_renumber, ← Definition.valueless_iff]
    · rwa [Definition.takes_iff, Definition.arity_renumber, ← Definition.takes_iff]
  | call hd hTakes ha =>
    rw [← List.length_map f] at ha ⊢
    refine .call (hd.renamed h hp.chain) ?_ ha
    rwa [Definition.takes_iff, Definition.arity_renumber, ← Definition.takes_iff]
  | target hd ha =>
    refine .target (hd.renamed h hp.chain) ?_
    rwa [Definition.storage_iff, Definition.isAssignable_renumber, ← Definition.storage_iff]
  | returnValue hc =>
    refine .returnValue fun name params body he => ?_
    rw [hp.callable, Option.map_eq_some_iff] at he
    obtain ⟨d, hd, he⟩ := he
    cases d with
    | func => exact hc _ _ _ hd
    | _ => cases he
  | returnVoid hc =>
    refine .returnVoid ?_
    rw [hp.callable, hc]
    rfl
  | breakLoop hl => exact .breakLoop (hp.looped.trans hl)

theorem Violation.renamed (h : t.Renamed f u) (hTree : t.WellFormed) {id : NodeId} {d : Diagnostic}
    (hv : Violation t id d) : Violation u (f id) d := by
  obtain ⟨place, n, hs, hn, hb, hd⟩ := hv
  obtain ⟨place', hs', hPlace⟩ := hs.exists_renamed h hTree
  obtain ⟨m, hm, hNode⟩ := h.get? hn
  refine ⟨place', m, hs', hm, ?_, hd.trans hNode.start.symm⟩
  rcases hNode.kind.of_renumber with ⟨stmts, table, table', hk, -⟩ | ⟨-, hl⟩
  · have hRuled := hb.isRuled
    rw [hk] at hRuled
    cases hRuled
  · rw [hl]
    exact hb.renamed h hPlace

/-! ### Faults -/

theorem Tree.Renamed.counterparts (h : t.Renamed f u) (hTree : t.WellFormed) {ids : List NodeId}
    {ds : List Diagnostic} (hAll : ids.Forall₂ (Violation t) ds) :
    (ids.map f).Forall₂ (Violation u) ds :=
  List.forall₂_map_left_iff.mpr (hAll.imp fun _ _ hv => hv.renamed h hTree)

namespace Tree.Renamed

variable (h : t.Renamed f u) (hTree : t.WellFormed) (hOther : u.WellFormed)

include h hTree hOther

theorem violation_iff (id : NodeId) (d : Diagnostic) : Violation u (f id) d ↔ Violation t id d := by
  refine ⟨fun hv => ?_, fun hv => hv.renamed h hTree⟩
  have hBack := hv.renamed h.symm hOther
  rwa [f.symm_apply_apply] at hBack

/-- The nodes that have faults in one tree are the counterparts of those in the other. -/
theorem exists_faulty : ∃ ids ids' : List NodeId, ids.Nodup ∧
    ids.Forall₂ (Violation t) (check t) ∧ ids'.Perm (ids.map f) ∧
    ids'.Forall₂ (Violation u) (check u) := by
  obtain ⟨ids, hNodup, hMem, hAll⟩ := hTree.check_violations
  obtain ⟨ids', hNodup', hMem', hAll'⟩ := hOther.check_violations
  refine ⟨ids, ids', hNodup, hAll, ?_, hAll'⟩
  refine (List.perm_ext_iff_of_nodup hNodup' (hNodup.map f.injective)).mpr fun id => ?_
  rw [hMem', ← f.apply_symm_apply id, List.mem_map_of_injective f.injective, hMem]
  exact exists_congr fun d => h.violation_iff hTree hOther _ d

/-- The trees have the same faults. -/
theorem check_perm : (check u).Perm (check t) := by
  obtain ⟨ids, ids', -, hAll, hIds, hAll'⟩ := h.exists_faulty hTree hOther
  -- a node has one fault at most, so the faults are put in order as the nodes are
  obtain ⟨faults, hFaults, hPerm⟩ := List.perm_comp_forall₂ hIds (h.counterparts hTree hAll)
  rwa [List.right_unique_forall₂' (fun _ _ _ hd he => hd.unique hOther he) hAll' hFaults]

theorem check_eq (hApart : (check t).Pairwise fun d e => d.position.offset < e.position.offset) :
    check u = check t := by
  have hPerm := h.check_perm hTree hOther
  have hOffsets : ((check t).map (·.position.offset)).Nodup :=
    List.pairwise_map.mpr (hApart.imp Nat.ne_of_lt)
  refine hPerm.eq_of_pairwise ?_ (Findings.sorted_pairwise _) (Findings.sorted_pairwise _)
  intro d e hd he hde hed
  exact List.inj_on_of_nodup_map hOffsets (hPerm.subset hd) he (Nat.le_antisymm hde hed)

end Tree.Renamed

end StageScript

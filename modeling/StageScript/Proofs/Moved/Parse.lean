import StageScript.Proofs.Moved.Swap
import StageScript.Proofs.Parse.Script
import StageScript.Proofs.Tree.Renamed

/-!
# Trees of neighbours that change places

Both lists are scripts if one of them is, and their trees differ in their numbers only
(`Swap.exists_parse`).
-/

set_option synthInstance.maxSize 4000

namespace StageScript

open Parse

namespace Twin

variable {P : Twin} {σ : Option Nat} {clear : Prop} {links : Links}

/-- Both parsers declare what a host provides. -/
theorem sim_declareHost {ds : List Definition} (h : ∀ d ∈ ds, d.body? = none) (span : Span) :
    Sim P (P.Abreast σ clear links) (ds.forM fun d => do let _ ← declare d span)
      (ds.forM fun d => do let _ ← declare d span) fun _ _ => P.Abreast σ clear links := by
  induction ds with
  | nil => exact .pure fun _ _ h => h
  | cons d ds ih =>
    obtain ⟨hd, hds⟩ := List.forall_mem_cons.mp h
    have hDeclare : Sim P (P.Abreast σ clear links) (declare d span >>= fun _ => Pure.pure ())
        (declare d span >>= fun _ => Pure.pure ()) fun _ _ => P.Abreast σ clear links :=
      (sim_declare [] (fun _ _ => .same hd) rfl fun _ => rfl).bind
        fun _ _ => .pure fun _ _ h => h.tail
    have hRuns : Parse.Runs Onward (ds.forM fun d => do let _ ← declare d span) :=
      runs_forM (fun _ => inferInstance) ds
    exact hDeclare.bind fun _ _ => ih hds

/-- Without names that only the right parser holds, it succeeds with the left one. -/
theorem Agree.exists_ok {α β : Type} {post : α → β → Parser → Parser → Prop} {a : α} {p : Parser}
    {reply : Reply β} (h : Agree P post (.ok a p) reply) (hNames : P.rightNames = []) :
    ∃ b q, reply = .ok b q ∧ post a b p q := by
  cases h with
  | ok h => exact ⟨_, _, rfl, h⟩
  | lost h _ =>
    obtain ⟨name, table, -, hName, -⟩ := h
    rw [hNames] at hName
    cases hName

end Twin

namespace Swap

variable {S : Swap} {file : String} {host : Host} {p q r s : Parser} {ids ids' : List NodeId}

theorem simInner (S : Swap) (levels : Nat) :
    S.twin.SimInner ⟨exprAt levels, blockAt levels⟩ := by
  -- the blocks of one level are compared by what stands inside them, one level further down
  induction levels with
  | zero => exact ⟨Twin.sim_exprAt _ 0, Twin.sim_blockAt_zero⟩
  | succ levels ih =>
    refine ⟨Twin.sim_exprAt _ _, Twin.sim_blockWith ih fun depth _ => ?_⟩
    exact bridges (fun _ => Twin.stopsAlike_closeCurly) (fun _ => of_decide_eq_true) ih depth 0

theorem abreast_start (S : Swap) (file : String) :
    S.twin.Abreast none False [] (Parser.start S.left file true)
      (Parser.start S.right file true) where
  left := rfl
  right := rfl
  file := rfl
  grammar := rfl
  nesting := rfl
  meets := ⟨rfl, .inl (Nat.zero_le _)⟩
  clear := False.elim
  opens _ := rfl
  nodes := by
    refine ⟨fun _ _ => False, ⟨rfl, 1, fun x _ => rfl, fun x y => ?_⟩, ?_, ?_, ?_⟩
    · exact ⟨False.elim, fun h => absurd h.1 (Nat.not_lt_zero x)⟩
    · exact fun x y h => h.elim
    · exact List.forall_mem_nil _
    · exact Twin.Chains.base (P := S.twin) .nil List.nodup_nil

/-- The trees of the two parsers differ in their numbers only. -/
theorem exists_renamed (h : S.twin.Abreast none True [(ids, ids')] r s) (hOuter : r.outer = []) :
    ∃ f, (r.closed ids file).Renamed f (s.closed ids' file) := by
  obtain ⟨ρ, ⟨hSize, f, hFixed, hFits⟩, hLinked, hHold, hChains⟩ := h.nodes
  have hρ : ∀ x y, ρ x y → y = f x := fun x y hxy => ((hFits x y).mp hxy).2
  have hRoot : f r.tree.size = r.tree.size := hFixed _ (Nat.le_refl _)
  refine ⟨f, hSize.trans hRoot.symm, ?_, fun id => ?_⟩
  · have hPush : ∀ (p : Parser) (ids : List NodeId), (p.closed ids file).size = p.tree.size + 1 :=
      fun p ids => Array.size_push _
    rw [hPush, hPush, hSize]
  rcases Nat.lt_trichotomy id r.tree.size with hOld | rfl | hNew
  · obtain ⟨n, m, hn, hm, hAlike, hStart, -⟩ := hLinked id (f id) ((hFits _ _).mpr ⟨hOld, rfl⟩)
    have hLess : f id < s.tree.size := hSize ▸ lt_of_fixed hFixed hOld
    rw [Parser.closed_get?_of_lt hOld, Parser.closed_get?_of_lt hLess, hn, hm]
    exact .some ⟨hAlike.rearranged hρ, hStart⟩
  · obtain ⟨es, fs, hEs, hFs, hAlike⟩ := hChains.base_of_le (by rw [hOuter]; exact Nat.le_refl 0)
    have hPerm := (hAlike.perm_renumber hρ).1
    rw [hRoot, Parser.closed_get?_size, ← hSize, Parser.closed_get?_size, hEs, hFs,
      eq_map_of_forall₂ hρ hHold.list]
    exact .some ⟨.block _ hPerm, rfl⟩
  · have hMore : s.tree.size < f id := by
      rw [hFixed id (Nat.le_of_lt hNew), hSize]
      exact hNew
    rw [Parser.closed_get?_of_gt hNew, Parser.closed_get?_of_gt hMore]
    exact .none

/-- The neighbours can change places in a script. -/
theorem exists_parse {t : Tree} (h : parse S.left file host = .ok t) :
    ∃ u f, parse S.right file host = .ok u ∧ t.Renamed f u := by
  obtain ⟨r, s, ids, hHost, hStmts, rfl⟩ := parse_eq_ok h
  have hBody : ∀ d ∈ host.definitions, d.body? = none := fun d hd => (host_definitions host d hd).1
  have hDeclare := Twin.sim_declareHost hBody ⟨⟨0, file⟩, ⟨0, file⟩⟩ _ _ (S.abreast_start file)
  rw [hHost] at hDeclare
  obtain ⟨_, r', hHost', hStart⟩ := hDeclare.exists_ok rfl
  have hOuter : r.outer = [] := by
    rw [declareAll_eq_ok hHost]
    rfl
  have hInner : S.twin.SimInner (innerOf r) := S.simInner _
  have hBridges : S.twin.Bridges (innerOf r) (fun _ => false) 0 0 :=
    bridges (fun _ => Twin.stopsAlike_never) (fun _ h => by cases h) hInner 0 0
  have hAgree := Twin.sim_stmts hInner Twin.stopsAlike_never hBridges r.rounds r'.rounds [] r r'
    ⟨hStart, by rw [hOuter]; rfl, Nat.zero_le _, hStart.rounds⟩
  rw [hStmts] at hAgree
  obtain ⟨ids', s', hStmts', hEnd⟩ := hAgree.exists_ok rfl
  have hSame : innerOf r' = innerOf r := by rw [innerOf, innerOf, hStart.nesting]
  have hOnward : Onward r s := Parse.Runs.related hStmts
  obtain ⟨f, hRenamed⟩ := exists_renamed hEnd (hOnward.outer.trans hOuter)
  refine ⟨_, f, parse_of_ok hHost' ?_, hRenamed⟩
  rw [hSame]
  exact hStmts'

end Swap

end StageScript

import Mathlib.Data.List.Forall2
import StageScript.Proofs.Check.Cover
import StageScript.Proofs.Check.Rules

/-!
# The checks find the violations

`Exact t nodes f` says that the findings `f` are the violations among `nodes`, in that
order, and that no fault of the tree stopped the checks.  It holds of the findings at one
node (`exact_own`), is kept when checks are put together (`Exact.andThen`), and so holds of
the check of a node and everything that the checks go to from it (`exact_checkAt`).
-/

namespace StageScript

namespace Findings

@[simp] theorem andThen_clean (f : Findings) : (f >> clean) = f := by
  obtain ⟨reports, fatal⟩ := f
  cases fatal with
  | none => simp [HAndThen.hAndThen, AndThen.andThen, andThen, clean]
  | some d => rfl

theorem andThen_of_fatal_eq_none {f g : Findings} (h : f.fatal = none) :
    (f >> g) = ⟨f.reports ++ g.reports, g.fatal⟩ := by
  simp [HAndThen.hAndThen, AndThen.andThen, andThen, h]

@[simp] theorem all_nil {α : Type} (check : α → Findings) : all check [] = clean := rfl

@[simp] theorem all_cons {α : Type} (check : α → Findings) (x : α) (xs : List α) :
    all check (x :: xs) = (check x >> all check xs) := rfl

end Findings

/-- The findings are the violations among the nodes, in their order, and nothing else. -/
structure Exact (t : Tree) (nodes : List NodeId) (f : Findings) : Prop where
  fatal : f.fatal = none
  reports : ∃ ids, ids.Sublist nodes ∧ List.Forall₂ (Violation t) ids f.reports ∧
    ∀ id ∈ nodes, (∃ d, Violation t id d) → id ∈ ids

namespace Exact

variable {t : Tree}

theorem nil : Exact t [] .clean :=
  ⟨rfl, [], .refl [], .nil, nofun⟩

theorem andThen {nodes more : List NodeId} {f g : Findings} (hf : Exact t nodes f)
    (hg : Exact t more g) : Exact t (nodes ++ more) (f >> g) := by
  rw [Findings.andThen_of_fatal_eq_none hf.fatal]
  obtain ⟨ids, hSub, hAll, hMem⟩ := hf.reports
  obtain ⟨ids', hSub', hAll', hMem'⟩ := hg.reports
  refine ⟨hg.fatal, ids ++ ids', hSub.append hSub', List.rel_append hAll hAll', ?_⟩
  intro id hid hv
  rcases List.mem_append.mp hid with hid | hid
  · exact List.mem_append_left _ (hMem id hid hv)
  · exact List.mem_append_right _ (hMem' id hid hv)

theorem all {α : Type} {check : α → Findings} {nodes : α → List NodeId} {xs : List α}
    (h : ∀ x ∈ xs, Exact t (nodes x) (check x)) : Exact t (xs.flatMap nodes) (.all check xs) := by
  induction xs with
  | nil => exact nil
  | cons x xs ih =>
    exact (h x List.mem_cons_self).andThen (ih fun y hy => h y (List.mem_cons_of_mem x hy))

theorem clean {id : NodeId} (h : ¬ ∃ d, Violation t id d) : Exact t [id] .clean := by
  refine ⟨rfl, [], List.nil_sublist _, .nil, ?_⟩
  intro i hi hv
  rw [List.mem_singleton.mp hi] at hv
  exact absurd hv h

theorem report {id : NodeId} {cause : Cause} {position : Position}
    (h : Violation t id ⟨cause, position⟩) : Exact t [id] (.report cause position) :=
  ⟨rfl, [id], .refl _, .cons h .nil, fun _ hi _ => hi⟩

end Exact

/-! ### The node itself -/

namespace Place

def context (place : Place) : Check.Context :=
  ⟨place.chain, (place.callable.bind CallableKind.ofDefinition?).map Prod.fst, place.looped⟩

end Place

namespace Check

def own (t : Tree) (context : Context) (node : Node) : Findings :=
  match node.kind with
  | .ref name => reference t context.chain node.span.start name 0 true
  | .call name args => reference t context.chain node.span.start name args.length true
  | .callStmt name args => reference t context.chain node.span.start name args.length false
  | .target name _ => target t context.chain node.span.start name
  | .returnValue _ =>
    .require (context.callable = some .function) .returnValueOutsideFunction node.span.start
  | .returnVoid => .require context.callable.isSome .returnOutsideRoutine node.span.start
  | .breakLoop => .require context.inLoop .breakOutsideLoop node.span.start
  | _ => .clean

end Check

namespace Stands

variable {t : Tree} {place : Place} {id : NodeId} {node : Node}

theorem exact_report (hs : Stands t place id) (hn : t.get? id = some node) {cause : Cause}
    (hb : Breaks t place node.kind cause) : Exact t [id] (.report cause node.span.start) :=
  .report ⟨place, node, hs, hn, hb, rfl⟩

theorem exact_clean (h : t.WellFormed) (hs : Stands t place id) (hn : t.get? id = some node)
    (hb : ∀ cause, ¬ Breaks t place node.kind cause) : Exact t [id] .clean := by
  refine .clean ?_
  rintro ⟨d, q, other, hq, ho, hBreaks, -⟩
  rw [hn] at ho
  cases ho
  rw [← hs.unique h hq] at hBreaks
  exact hb d.cause hBreaks

/-- A rule that can be tested is broken iff the test fails. -/
theorem exact_require (h : t.WellFormed) (hs : Stands t place id) (hn : t.get? id = some node)
    {holds : Bool} {cause : Cause} (hFails : holds = false → Breaks t place node.kind cause)
    (hHolds : holds = true → ∀ c, ¬ Breaks t place node.kind c) :
    Exact t [id] (.require holds cause node.span.start) := by
  cases holds with
  | true => exact hs.exact_clean h hn (hHolds rfl)
  | false => exact hs.exact_report hn (hFails rfl)

/-- The findings at a use of a name, as a value or as a statement. -/
theorem exact_reference (h : t.WellFormed) (hs : Stands t place id) (hn : t.get? id = some node)
    {name : String} {n : Nat} {inExpression : Bool} (hName : node.kind.named? = some name)
    (hUse : inExpression = true ∧ node.kind.valued? = some (name, n) ∨
      inExpression = false ∧ ∃ args : List NodeId, node.kind = .callStmt name args ∧ args.length = n) :
    Exact t [id] (Check.reference t place.chain node.span.start name n inExpression) := by
  rw [Check.reference]
  cases hf : place.chain.find? name with
  | none => exact hs.exact_report hn (.undefined hName (Chain.find?_eq_none_iff.mp hf))
  | some i =>
    obtain ⟨d, hd⟩ := hs.find?_definition h hf
    have hr : Resolves t place.chain name d := ⟨i, hf, hd⟩
    simp only [Tree.definition_of_kind? hd, Check.lookup]
    rcases hUse with ⟨rfl, hv⟩ | ⟨rfl, args, hk, rfl⟩
    · cases hRoutine : d.isRoutine with
      | true => exact hs.exact_report hn (.routine hv hr (Definition.valueless_iff.mpr hRoutine))
      | false =>
        have hValue : ¬ d.Valueless := by
          rw [Definition.valueless_iff, hRoutine]
          exact Bool.false_ne_true
        refine hs.exact_require h hn
          (fun ha => .value hv hr hValue d.takes_arity (of_decide_eq_false ha)) ?_
        exact fun ha c => Breaks.not_of_valued hv hr hValue (of_decide_eq_true ha)
    · refine hs.exact_require h hn
        (fun ha => hk ▸ .call hr d.takes_arity (of_decide_eq_false ha)) ?_
      intro ha c hb
      rw [hk] at hb hName
      cases hb with
      | undefined hl hnone =>
        cases hl
        exact hr.not_undefined hnone
      | routine hl _ _ => cases hl
      | value hl _ _ _ _ => cases hl
      | call he hTakes hne =>
        cases hr.unique he
        cases Definition.takes_iff.mp hTakes
        exact hne (of_decide_eq_true ha)

theorem exact_target (h : t.WellFormed) (hs : Stands t place id) (hn : t.get? id = some node)
    {name : String} {indices : List NodeId} (hk : node.kind = .target name indices) :
    Exact t [id] (Check.target t place.chain node.span.start name) := by
  rw [Check.target]
  cases hf : place.chain.find? name with
  | none =>
    refine hs.exact_report hn (.undefined ?_ (Chain.find?_eq_none_iff.mp hf))
    rw [hk]
    rfl
  | some i =>
    obtain ⟨d, hd⟩ := hs.find?_definition h hf
    have hr : Resolves t place.chain name d := ⟨i, hf, hd⟩
    simp only [Tree.definition_of_kind? hd, Check.lookup]
    refine hs.exact_require h hn (fun ha => ?_) ?_
    · rw [hk]
      refine .target hr ?_
      rw [Definition.storage_iff, ha]
      exact Bool.false_ne_true
    intro ha c hb
    rw [hk] at hb
    cases hb with
    | undefined hl hnone =>
      cases hl
      exact hr.not_undefined hnone
    | routine hl _ _ => cases hl
    | value hl _ _ _ _ => cases hl
    | target he hne =>
      cases hr.unique he
      exact hne (Definition.storage_iff.mpr ha)

/-- The callable around a node has a body. -/
theorem callable_body (hs : Stands t place id) :
    ∀ d, place.callable = some d → ∃ b, d.body? = some b := by
  induction hs with
  | root => exact nofun
  | @part place n c k _ _ hc ih =>
    intro d hd
    rcases place.part_callable k c with ⟨e, rfl, he⟩ | he
    · cases he.symm.trans hd
      exact ⟨c, by simpa [NodeKind.children] using hc⟩
    · exact ih d (he ▸ hd)
  | entry _ _ _ ih => exact ih

theorem context_function_iff :
    place.context.callable = some .function ↔
      ∃ name params body, place.callable = some (.func name params body) := by
  cases hc : place.callable with
  | none => simp [Place.context, hc]
  | some d => cases d <;> simp [Place.context, hc, CallableKind.ofDefinition?]

theorem context_callable_eq_none_iff (hs : Stands t place id) :
    place.context.callable.isSome = false ↔ place.callable = none := by
  cases hc : place.callable with
  | none => simp [Place.context, hc]
  | some d =>
    obtain ⟨b, hb⟩ := hs.callable_body d hc
    cases d <;> simp_all [Place.context, CallableKind.ofDefinition?, Definition.body?]

/-- The findings at a node are its violation, if it is one. -/
theorem exact_own (h : t.WellFormed) (hs : Stands t place id) (hn : t.get? id = some node) :
    Exact t [id] (Check.own t place.context node) := by
  obtain ⟨kind, span⟩ := node
  cases kind with
  | ref name => exact hs.exact_reference h hn rfl (Or.inl ⟨rfl, rfl⟩)
  | call name args => exact hs.exact_reference h hn rfl (Or.inl ⟨rfl, rfl⟩)
  | callStmt name args => exact hs.exact_reference h hn rfl (Or.inr ⟨rfl, args, rfl, rfl⟩)
  | target name indices => exact hs.exact_target h hn rfl
  | returnValue value =>
    refine hs.exact_require h hn (fun hf => .returnValue ?_) ?_
    · intro name params body hc
      exact of_decide_eq_false hf (context_function_iff.mpr ⟨name, params, body, hc⟩)
    · intro ht c hb
      obtain ⟨name, params, body, hc⟩ := context_function_iff.mp (of_decide_eq_true ht)
      cases hb with
      | undefined hk _ => cases hk
      | routine hk _ _ => cases hk
      | value hk _ _ _ _ => cases hk
      | returnValue hne => exact hne name params body hc
  | returnVoid =>
    refine hs.exact_require h hn (fun hf => .returnVoid (hs.context_callable_eq_none_iff.mp hf)) ?_
    intro ht c hb
    cases hb with
    | undefined hk _ => cases hk
    | routine hk _ _ => cases hk
    | value hk _ _ _ _ => cases hk
    | returnVoid hc =>
      rw [hs.context_callable_eq_none_iff.mpr hc] at ht
      cases ht
  | breakLoop =>
    refine hs.exact_require h hn .breakLoop ?_
    intro ht c hb
    cases hb with
    | undefined hk _ => cases hk
    | routine hk _ _ => cases hk
    | value hk _ _ _ _ => cases hk
    | breakLoop hl => exact Bool.noConfusion (hl.symm.trans ht)
  | _ => exact hs.exact_clean h hn fun c hb => nomatch hb.isRuled

end Stands

/-! ### The walk -/

namespace Check

/-- The parts of a loop with a head: only the body is in the loop. -/
theorem loop_eq {check : Checker} {place : Place} {k : NodeKind} {first body : NodeId}
    (hBody : k.loopBody? = some body) (hParts : k.children = [first, body])
    (hNodup : k.children.Nodup) :
    Findings.all (fun c => check (place.part k c).context c) k.children =
      (check place.context first >> check { place.context with inLoop := true } body) := by
  have hne : body ≠ first := by
    rintro rfl
    simp [hParts] at hNodup
  have hFirst : place.part k first = place := by
    cases k <;> cases hBody <;> simp_all [Place.part, NodeKind.loopBody?]
  have hLast : place.part k body = { place with looped := true } := by
    cases k <;> cases hBody <;> simp [Place.part, NodeKind.loopBody?]
  rw [hParts, Findings.all_cons, Findings.all_cons, Findings.all_nil, Findings.andThen_clean,
    hFirst, hLast]
  rfl

/-- The check of a node but a block or a definition: the node itself, then its parts where
they stand. -/
theorem nodeWith_eq {t : Tree} (h : t.WellFormed) {check : Checker} {place : Place} {id : NodeId}
    {node : Node} (hn : t.get? id = some node) (hd : node.kind.isDefinition = false)
    (hb : ∀ stmts table, node.kind ≠ .block stmts table) :
    nodeWith t check place.context id = (own t place.context node >>
      .all (fun c => check (place.part node.kind c).context c) node.kind.children) := by
  have hNodup := h.children_nodup (Tree.kind?_eq_some_iff.mpr ⟨node, hn, rfl⟩)
  rw [nodeWith, Tree.node_of_get? hn, lookup]
  obtain ⟨kind, span⟩ := node
  cases kind with
  | block stmts table => exact absurd rfl (hb stmts table)
  | definition d => cases hd
  | ref name => exact (Findings.andThen_clean _).symm
  | returnVoid => exact (Findings.andThen_clean _).symm
  | breakLoop => exact (Findings.andThen_clean _).symm
  | returnValue value =>
    simp only [NodeKind.children, Findings.all_cons, Findings.all_nil, Findings.andThen_clean]
    rfl
  | loop body =>
    have hPart : place.part (.loop body) body = { place with looped := true } := if_pos rfl
    simp only [NodeKind.children, Findings.all_cons, Findings.all_nil, Findings.andThen_clean, hPart]
    rfl
  | times count body => exact (loop_eq rfl rfl hNodup).symm
  | whileLoop cond body => exact (loop_eq rfl rfl hNodup).symm
  | ascent bounds body => exact (loop_eq rfl rfl hNodup).symm
  | descent bounds body => exact (loop_eq rfl rfl hNodup).symm
  | _ => rfl

theorem nodeWith_definition {t : Tree} {check : Checker} {context : Context} {id : NodeId}
    {node : Node} (hn : t.get? id = some node) (hd : node.kind.isDefinition = true) :
    nodeWith t check context id = own t context node := by
  rw [nodeWith, Tree.node_of_get? hn, lookup]
  obtain ⟨kind, span⟩ := node
  cases kind with
  | definition d => rfl
  | _ => cases hd

/-- The check of a block: its statements, then the bodies of what it declares. -/
theorem nodeWith_block {t : Tree} {check : Checker} {place : Place} {id : NodeId} {node : Node}
    (hn : t.get? id = some node) {stmts : List NodeId} {table : NameTable}
    (hk : node.kind = .block stmts table) :
    nodeWith t check place.context id = (.all (check (place.inside table).context) stmts >>
      .all (body t check (table :: place.chain)) table.ids) := by
  rw [nodeWith, Tree.node_of_get? hn, lookup]
  obtain ⟨kind, span⟩ := node
  cases hk
  rfl

end Check

theorem CallableKind.ofDefinition?_cases (d : Definition) :
    (ofDefinition? d = none ∧ d.body? = none) ∨
      ∃ kind block, ofDefinition? d = some (kind, block) ∧ d.body? = some block := by
  cases d <;> simp [ofDefinition?, Definition.body?]

/-- Where the checks go on in the body of a callable that a block declares. -/
theorem Place.context_body (place : Place) (table : NameTable) {d : Definition} {kind : CallableKind}
    {block : NodeId} (h : CallableKind.ofDefinition? d = some (kind, block)) :
    ((place.inside table).part (.definition d) block).context =
      ⟨table :: place.chain, some kind, false⟩ := by
  simp [context, part, inside, h]

section Walk

variable {t : Tree} {check : Check.Checker} {place : Place} {id : NodeId}

/-- What is checked of a definition that a block declares: its body, where it stands. -/
theorem exact_body (h : t.WellFormed) {stmts : List NodeId} {table : NameTable}
    (hs : Stands t place id) (hk : t.kind? id = some (.block stmts table))
    (ih : ∀ c q, Stands t q c → c < id → Exact t (subtree t.checked c) (check q.context c))
    {d : NodeId} (hd : d ∈ table.entries.map Prod.snd) :
    Exact t ((t.bodyOf? d).toList.flatMap (subtree t.checked))
      (Check.body t check (table :: place.chain) d) := by
  obtain ⟨e, he⟩ := h.entry_definition hk hd
  rw [Check.body, Tree.definition_of_kind? he, Check.lookup, Tree.bodyOf?_of_kind? he]
  rcases CallableKind.ofDefinition?_cases e with ⟨hKind, hBody⟩ | ⟨kind, block, hKind, hBody⟩
  · rw [hKind, hBody]
    exact .nil
  · obtain ⟨inner, own, hBlock⟩ := h.body_block he hBody
    have hlt : block < id :=
      Nat.lt_trans (h.body_lt ((Tree.bodyOf?_of_kind? he).trans hBody)) (h.entry_lt hk hd)
    have hPart := ih _ _ (.part (.entry hs hk hd) he (NodeKind.mem_children_of_body? hBody)) hlt
    rw [place.context_body table hKind] at hPart
    simpa [hKind, hBody, Tree.block_of_kind? hBlock, Check.lookup] using hPart

theorem exact_block (h : t.WellFormed) {stmts : List NodeId} {table : NameTable}
    (hs : Stands t place id) (hk : t.kind? id = some (.block stmts table))
    (ih : ∀ c q, Stands t q c → c < id → Exact t (subtree t.checked c) (check q.context c)) :
    Exact t (subtree t.checked id) (Check.nodeWith t check place.context id) := by
  obtain ⟨node, hn, hKind⟩ := Tree.kind?_eq_some_iff.mp hk
  have hOwn := hs.exact_own h hn
  rw [show Check.own t place.context node = .clean by rw [Check.own, hKind]] at hOwn
  rw [h.checked_falls.subtree_eq, Tree.checked_of_kind? hk, Tree.checkedOf, List.flatMap_append,
    List.filterMap_eq_flatMap_toList, List.flatMap_assoc, Check.nodeWith_block hn hKind]
  refine hOwn.andThen (.andThen (.all ?_) (.all ?_))
  · exact fun c hc => ih c _ (.part hs hk hc) (h.child_lt hk hc)
  · exact fun d hd => exact_body h hs hk ih (table.ids_perm.mem_iff.mp hd)

/-- If the parts of a node are checked exactly, so is the node. -/
theorem exact_nodeWith (h : t.WellFormed) (hs : Stands t place id)
    (ih : ∀ c q, Stands t q c → c < id → Exact t (subtree t.checked c) (check q.context c)) :
    Exact t (subtree t.checked id) (Check.nodeWith t check place.context id) := by
  obtain ⟨k, hk⟩ := Tree.exists_kind?_of_lt (hs.lt_size h)
  by_cases hBlock : ∃ stmts table, k = .block stmts table
  · obtain ⟨stmts, table, rfl⟩ := hBlock
    exact exact_block h hs hk ih
  · obtain ⟨node, hn, rfl⟩ := Tree.kind?_eq_some_iff.mp hk
    have hPlain : ∀ stmts table, node.kind ≠ .block stmts table :=
      fun stmts table he => hBlock ⟨stmts, table, he⟩
    rw [h.checked_falls.subtree_eq, Tree.checked_of_kind? hk]
    cases hDef : node.kind.isDefinition with
    | true =>
      rw [Check.nodeWith_definition hn hDef, Tree.checkedOf_definition hDef]
      exact hs.exact_own h hn
    | false =>
      rw [Check.nodeWith_eq h hn hDef hPlain, Tree.checkedOf_eq_children hDef hPlain]
      refine (hs.exact_own h hn).andThen (.all ?_)
      exact fun c hc => ih c _ (.part hs hk hc) (h.child_lt hk hc)

/-- The check of a node finds the violations of the node and of all that the checks go to
from it. -/
theorem exact_checkAt (h : t.WellFormed) {depth : Nat} (hs : Stands t place id)
    (hDepth : id < depth) :
    Exact t (subtree t.checked id) (Check.checkAt t depth place.context id) := by
  induction depth generalizing place id with
  | zero => exact absurd hDepth (Nat.not_lt_zero _)
  | succ depth ih =>
    refine exact_nodeWith h hs fun c q hq hc => ih hq ?_
    exact Nat.lt_of_lt_of_le hc (Nat.le_of_lt_succ hDepth)

end Walk

/-- The checks find every violation of a well-formed tree. -/
theorem exact_root {t : Tree} (h : t.WellFormed) :
    Exact t (subtree t.checked t.root) (Check.root t) := by
  obtain ⟨stmts, table, hk⟩ := h.root_block
  rw [Check.root, Tree.block_of_kind? hk]
  refine exact_checkAt h .root ?_
  rw [← h.root_last]
  exact Nat.lt_succ_of_lt (Nat.lt_succ_self t.root)

end StageScript

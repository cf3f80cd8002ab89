import Mathlib
import StageScript.Proofs.Analysis.Usage
import StageScript.Proofs.Parse.Origin
import StageScript.Proofs.Types.Join

/-!
# Types of analysed expressions

When an analysis is over, the note of every expression that was visited follows from the notes
of its parts as they stand in the end (`Noted.value_eq`).  So what holds of `Ty.unify` and
`Ty.unifyElements` holds of expressions:

* neither the order nor the grouping of operands matters to the type of a chain of concatenations
  (`unify_joins`);
* an array literal has the least element type that holds all its elements (`unifyElements_least`);
* no node has the type `empty`, which is the element of the empty array alone (`analyze_ne_empty`).
-/

namespace StageScript

/-! ### Notes in the end -/

structure Noted (t : Tree) (a : Annotations) : Prop where
  tree : t.WellFormed
  part : ∀ {n k c}, t.kind? n = some k → k.isExpr = true → a.isVisited n = true →
    c ∈ k.children → a.isVisited c = true
  valued : ∀ {n}, a.isVisited n = true → Valued t a n
  unvisited : ∀ {n}, a.isVisited n = false → (a.note n).value = .unknown

theorem NodeKind.isDefinition_of_isExpr {k : NodeKind} (h : k.isExpr = true) :
    k.isDefinition = false := by
  cases k with
  | definition d => cases h
  | _ => rfl

/-- Nodes that are not visited keep the notes from before the analysis. -/
theorem Whole.value_of_not_visited {t : Tree} {options : Options} {fresh : List NodeId}
    {a : Annotations} (h : Whole t options fresh a) {n : NodeId} (hn : a.isVisited n = false) :
    (a.note n).value = .unknown := by
  have hVisits : a.visits n = 0 := by simpa [Annotations.isVisited] using hn
  rw [h.visits_eq_count, List.count_eq_zero] at hVisits
  have hSame := h.walked.notes n List.not_mem_nil hVisits
  rw [Annotations.note, hSame]
  exact Annotations.value_ofTree t n

theorem noted_of_analyze {tokens : List Token} {file : String} {host : Host} {t : Tree}
    (h : parse tokens file host = .ok t) {options : Options} {a : Annotations}
    (ha : analyze t options = .ok a) : Noted t a := by
  have hTree := parse_wellFormed h
  obtain ⟨b, fresh, hb, hWalked⟩ := analyze_walked hTree options
  obtain rfl : a = b := Except.ok.inj (ha.symm.trans hb)
  have hWhole : Whole t options fresh a := ⟨hTree, hWalked⟩
  refine ⟨hTree, fun {n k c} hk he hn hc => ?_, analyze_valued hTree ha,
    hWhole.value_of_not_visited⟩
  have hd := NodeKind.isDefinition_of_isExpr he
  obtain ⟨l, hl, hle⟩ := (parse_composed h).part n k hk he c hc
  rw [hWhole.isVisited_iff hl (NodeKind.isDefinition_of_isExpr hle)]
  exact .part ((hWhole.isVisited_iff hk hd).mp hn) hk hd hc

namespace Noted

variable {t : Tree} {a : Annotations} {n : NodeId} {k : NodeKind}

/-- What is noted of an expression follows from what is noted of its parts. -/
theorem value_eq (h : Noted t a) (hk : t.kind? n = some k) (he : k.isExpr = true)
    (hn : a.isVisited n = true) {place : Place} (hs : Stands t place n) :
    (a.note n).value = .ofKind t place.chain (fun c => (a.note c).value) k := by
  have hBlock : ∀ stmts table, k ≠ .block stmts table := by
    rintro stmts table rfl
    cases he
  rw [h.valued hn place hs, h.tree.value_eq place.chain hk]
  refine Value.ofKind_congr fun c hc => ?_
  rw [h.valued (h.part hk he hn hc) _ (.part hs hk hc), place.part_chain_of_ne_block hBlock]

theorem ty_cat (h : Noted t a) {left right : NodeId}
    (hk : t.kind? n = some (.binary .cat left right)) (hn : a.isVisited n = true)
    (hl : (a.note left).ty.isArrayLike = true) (hr : (a.note right).ty.isArrayLike = true) :
    (a.note n).ty = (a.note left).ty.unify (a.note right).ty := by
  obtain ⟨place, hs⟩ := h.tree.exists_place (Tree.lt_size_of_kind? hk)
  have hTy := congrArg Value.ty (h.value_eq hk rfl hn hs)
  have hBoth : ((a.note left).ty.isArrayLike && (a.note right).ty.isArrayLike) = true := by
    rw [hl, hr]
    rfl
  exact hTy.trans (if_pos hBoth)

theorem ty_array (h : Noted t a) {elems : List NodeId} (hk : t.kind? n = some (.array elems))
    (hn : a.isVisited n = true) :
    (a.note n).ty = .array (Ty.unifyElements (elems.map fun e => (a.note e).ty)) := by
  obtain ⟨place, hs⟩ := h.tree.exists_place (Tree.lt_size_of_kind? hk)
  have hTy := congrArg Value.ty (h.value_eq hk rfl hn hs)
  rw [Value.ofKind, Value.array, List.map_map] at hTy
  exact hTy

end Noted

/-- What a source is analysed to, from a run through all stages. -/
theorem exists_analysed {source file : String} {host : Host} {options : Options} {α : Type}
    {view : Tree → Annotations → α} {seen : α}
    (h : (do
      let tokens ← tokenize source file
      let tree ← parse tokens file host
      let a ← analyze tree options
      pure (view tree a)) = Except.ok seen) :
    ∃ tokens tree a, tokenize source file = .ok tokens ∧ parse tokens file host = .ok tree ∧
      analyze tree options = .ok a ∧ view tree a = seen := by
  obtain ⟨tokens, hTokens, h⟩ := exists_of_bind_eq_ok h
  obtain ⟨tree, hTree, h⟩ := exists_of_bind_eq_ok h
  obtain ⟨a, ha, h⟩ := exists_of_bind_eq_ok h
  exact ⟨tokens, tree, a, hTokens, hTree, ha, Except.ok.inj h⟩

/-! ### Concatenations -/

/-- The expression `id` puts the operands together, from the first to the last and in some
grouping. -/
inductive Tree.Concatenates (t : Tree) : NodeId → List NodeId → Prop
  | operand (id : NodeId) : Concatenates t id [id]
  | cat {id left right : NodeId} {ls rs : List NodeId} :
      t.kind? id = some (.binary .cat left right) → Concatenates t left ls →
      Concatenates t right rs → Concatenates t id (ls ++ rs)

/-- A chain of concatenations has the join of the types of its operands. -/
theorem Noted.isJoin_of_concatenates {t : Tree} {a : Annotations} (h : Noted t a) {id : NodeId}
    {ops : List NodeId} (hc : t.Concatenates id ops) (hid : a.isVisited id = true)
    (hOps : ∀ n ∈ ops, (a.note n).ty.isArrayLike = true) :
    (a.note id).ty.isArrayLike = true ∧
      Ty.IsJoin (.array .any) (ops.map fun n => (a.note n).ty) (a.note id).ty := by
  induction hc with
  | operand id => exact ⟨hOps id List.mem_cons_self, .singleton Ty.array_any_ne_emptyArray _⟩
  | @cat id left right ls rs hk _ _ ihl ihr =>
    obtain ⟨hl, hLeft⟩ := ihl (h.part hk rfl hid List.mem_cons_self)
      fun n hn => hOps n (List.mem_append_left _ hn)
    obtain ⟨hr, hRight⟩ := ihr (h.part hk rfl hid (List.mem_cons_of_mem _ List.mem_cons_self))
      fun n hn => hOps n (List.mem_append_right _ hn)
    rw [h.ty_cat hk hid hl hr]
    refine ⟨Ty.isArrayLike_unify hl hr, ?_⟩
    rw [Ty.unify_eq, List.map_append]
    exact hLeft.append Ty.array_any_ne_emptyArray hRight

/-- In an analysed script, `ty` is the type of a chain of concatenations whose operands have the
types `tys`. -/
def ChainTyped (tys : List Ty) (ty : Ty) : Prop :=
  ∃ tokens file host tree options a id ops,
    parse tokens file host = .ok tree ∧ analyze tree options = .ok a ∧ a.isVisited id = true ∧
    tree.Concatenates id ops ∧ ops.map (fun n => (a.note n).ty) = tys ∧ (a.note id).ty = ty

theorem ChainTyped.isJoin {tys : List Ty} {ty : Ty} (h : ChainTyped tys ty)
    (hTys : ∀ x ∈ tys, x.isArrayLike = true) : Ty.IsJoin (.array .any) tys ty := by
  obtain ⟨tokens, file, host, tree, options, a, id, ops, hTree, ha, hid, hc, rfl, rfl⟩ := h
  have hNoted := noted_of_analyze hTree ha
  exact (hNoted.isJoin_of_concatenates hc hid (List.forall_mem_map.mp hTys)).2

/-- To unify types is to join them: equal types are left as they are, the order and the grouping do
not matter, and nothing is above the arrays of anything.  So the type of a chain of concatenations
depends neither on the order nor on the grouping of its operands, if these are arrays and
strings. -/
theorem unify_joins :
    (∀ a : Ty, a.unify a = a) ∧ (∀ a b : Ty, a.unify b = b.unify a) ∧
    (∀ a b c : Ty, a.unify (b.unify c) = (a.unify b).unify c) ∧
    (∀ a : Ty, a.unify (.array .any) = .array .any) ∧
    ∀ (first second : List Ty) (s t : Ty), (∀ x ∈ first, x.isArrayLike = true) →
      first.Perm second → ChainTyped first s → ChainTyped second t → s = t := by
  refine ⟨Ty.unify_self, Ty.unify_comm, Ty.unify_assoc, Ty.unify_array_any, ?_⟩
  intro first second s t hLike hPerm hFirst hSecond
  have hLike' : ∀ x ∈ second, x.isArrayLike = true := fun x hx => hLike x (hPerm.mem_iff.mpr hx)
  exact (hFirst.isJoin hLike).unique Ty.array_any_ne_emptyArray (hSecond.isJoin hLike')
    fun _ => hPerm.mem_iff

/-- Strings and empty arrays, put together in two ways. -/
theorem unify_joins_strings : ∃ t, ChainTyped [.emptyArray, .string, .emptyArray] .string ∧
    ChainTyped [.emptyArray, .emptyArray, .string] t ∧ t = .string := by
  have hRun : (do
      let tokens ← tokenize "let x = (\"\" ~ \"ab\") ~ []; let y = [] ~ (\"\" ~ \"ab\");" "a"
      let tree ← parse tokens "a" Host.empty
      let a ← analyze tree Options.standard
      pure ([3, 5, 11, 12].map tree.kind?, [5, 12].map a.isVisited,
        [1, 2, 4, 8, 9, 10, 5].map fun n => (a.note n).ty)) =
      Except.ok ([some (.binary .cat 1 2), some (.binary .cat 3 4), some (.binary .cat 9 10),
        some (.binary .cat 8 11)], [true, true],
        [.emptyArray, .string, .emptyArray, .emptyArray, .emptyArray, .string, .string]) := by
    cbv
  obtain ⟨tokens, tree, a, -, hTree, ha, hParts⟩ := exists_analysed hRun
  simp only [List.map_cons, List.map_nil, Prod.mk.injEq, List.cons.injEq, and_true] at hParts
  obtain ⟨⟨hLeft, hFirst, hRight, hSecond⟩, ⟨hx, hy⟩, h1, h2, h4, h8, h9, h10, h5⟩ := hParts
  have hOne : ChainTyped [.emptyArray, .string, .emptyArray] .string := by
    refine ⟨tokens, _, _, tree, _, a, 5, [1, 2] ++ [4], hTree, ha, hx, ?_, by simp [h1, h2, h4], h5⟩
    exact .cat hFirst (.cat hLeft (.operand 1) (.operand 2)) (.operand 4)
  have hTwo : ChainTyped [.emptyArray, .emptyArray, .string] (a.note 12).ty := by
    refine ⟨tokens, _, _, tree, _, a, 12, [8] ++ [9, 10], hTree, ha, hy, ?_,
      by simp [h8, h9, h10], rfl⟩
    exact .cat hSecond (.operand 8) (.cat hRight (.operand 9) (.operand 10))
  have hPerm : [Ty.emptyArray, .string, .emptyArray].Perm [.emptyArray, .emptyArray, .string] := by
    decide
  exact ⟨_, hOne, hTwo, (unify_joins.2.2.2.2 _ _ _ _ (by decide) hPerm hOne hTwo).symm⟩

/-! ### Array literals -/

/-- The element type of an array literal is the least type above those of the elements.  So neither
their order nor how often they stand there matters, and a list can be unified in two parts. -/
theorem unifyElements_least :
    (∀ ts : List Ty, ts ≠ [] →
      Ty.IsJoin .any ts (Ty.unifyElements ts) ∧
      (∀ us : List Ty, (∀ t, t ∈ ts ↔ t ∈ us) → Ty.unifyElements us = Ty.unifyElements ts) ∧
      ∀ us : List Ty, us ≠ [] →
        Ty.unifyElements (ts ++ us) = Ty.unifyElements [Ty.unifyElements ts, Ty.unifyElements us]) ∧
    ∀ {tokens : List Token} {file : String} {host : Host} {tree : Tree} {options : Options}
      {a : Annotations}, parse tokens file host = .ok tree → analyze tree options = .ok a →
      ∀ id elems, tree.kind? id = some (.array elems) → elems ≠ [] → a.isVisited id = true →
        ∃ e, (a.note id).ty = .array e ∧ Ty.IsJoin .any (elems.map fun n => (a.note n).ty) e := by
  constructor
  · intro ts hts
    refine ⟨Ty.isJoin_unifyElements hts, fun us hSame => ?_, fun us => Ty.unifyElements_append hts⟩
    have hus : us ≠ [] := by
      obtain ⟨t, ht⟩ := List.exists_mem_of_ne_nil ts hts
      exact List.ne_nil_of_mem ((hSame t).mp ht)
    exact ((Ty.isJoin_unifyElements hts).unique Ty.any_ne_emptyArray
      (Ty.isJoin_unifyElements hus) hSame).symm
  · intro tokens file host tree options a hTree ha id elems hk hElems hid
    refine ⟨_, (noted_of_analyze hTree ha).ty_array hk hid, Ty.isJoin_unifyElements ?_⟩
    exact mt List.map_eq_nil_iff.mp hElems

/-- Empty arrays around one of numbers. -/
theorem unifyElements_least_numbers : ∃ tokens tree a,
    tokenize "let x = [[], [1], []];" "a" = .ok tokens ∧ parse tokens "a" Host.empty = .ok tree ∧
    analyze tree Options.standard = .ok a ∧ (a.note 5).ty = .array (.array .real) ∧
    Ty.IsJoin .any [.emptyArray, .array .real, .emptyArray] (.array .real) ∧
    Ty.unifyElements [.array .real, .emptyArray] = .array .real := by
  have hRun : (do
      let tokens ← tokenize "let x = [[], [1], []];" "a"
      let tree ← parse tokens "a" Host.empty
      let a ← analyze tree Options.standard
      pure (tree.kind? 5, a.isVisited 5, [1, 3, 4, 5].map fun n => (a.note n).ty)) =
      Except.ok (some (.array [1, 3, 4]), true,
        [.emptyArray, .array .real, .emptyArray, .array (.array .real)]) := by
    cbv
  obtain ⟨tokens, tree, a, hTokens, hTree, ha, hParts⟩ := exists_analysed hRun
  simp only [List.map_cons, List.map_nil, Prod.mk.injEq, List.cons.injEq, and_true] at hParts
  obtain ⟨hk, hid, h1, h3, h4, h5⟩ := hParts
  obtain ⟨e, he, hJoin⟩ := unifyElements_least.2 hTree ha 5 _ hk (by simp) hid
  rw [h5] at he
  cases he
  simp only [List.map_cons, List.map_nil, h1, h3, h4] at hJoin
  refine ⟨tokens, tree, a, hTokens, hTree, ha, h5, hJoin, ?_⟩
  exact (unifyElements_least.1 [.emptyArray, .array .real] (by simp)).2.1 _ (by simp [or_comm])

/-! ### The type of no value -/

namespace Ty

theorem element_ne_empty (t : Ty) : t.element ≠ .empty := by
  cases t with
  | array e => cases e <;> simp [element]
  | _ => simp [element]

theorem ne_empty_of_isArrayLike {t : Ty} (h : t.isArrayLike = true) : t ≠ .empty := by
  rintro rfl
  cases h

theorem isArrayLike_of_isArray {t : Ty} (h : t.isArray = true) : t.isArrayLike = true := by
  cases t <;> simp_all [isArray, isArrayLike]

end Ty

namespace Value

theorem binary_ne_empty {op : BinaryOp} {l r : Value} (hl : l.ty ≠ .empty) :
    (binary op l r).ty ≠ .empty := by
  cases op with
  | add | sub =>
    dsimp only [binary, fresh]
    split_ifs with hReal hArray
    · exact Ty.noConfusion
    · rw [Bool.and_eq_true] at hArray
      exact Ty.ne_empty_of_isArrayLike (Ty.isArrayLike_unify
        (Ty.isArrayLike_of_isArray hArray.1) (Ty.isArrayLike_of_isArray hArray.2))
    · exact Ty.noConfusion
  | and | or =>
    dsimp only [binary]
    split_ifs
    · exact hl
    · exact Ty.noConfusion
  | cat =>
    dsimp only [binary]
    split_ifs with hLike
    · rw [Bool.and_eq_true] at hLike
      exact Ty.ne_empty_of_isArrayLike (Ty.isArrayLike_unify hLike.1 hLike.2)
    · exact Ty.noConfusion
  | _ => exact Ty.noConfusion

/-- A value has a type, if its parts have one and what its name stands for has one. -/
theorem ofKind_ne_empty {t : Tree} {chain : Chain} {part : NodeId → Value} {k : NodeKind}
    (hPart : ∀ c ∈ k.children, (part c).ty ≠ .empty)
    (hName : ∀ name, (ofName t chain name).ty ≠ .empty) : (ofKind t chain part k).ty ≠ .empty := by
  cases k with
  | str s =>
    dsimp only [ofKind, fresh]
    split_ifs <;> exact Ty.noConfusion
  | unary op operand => cases op <;> exact Ty.noConfusion
  | binary op lhs rhs => exact binary_ne_empty (hPart lhs List.mem_cons_self)
  | ref name => exact hName name
  | call name args => exact hName name
  | element base index => exact Ty.element_ne_empty _
  | slice base bounds =>
    dsimp only [ofKind, fresh]
    split_ifs with hLike
    · exact Ty.ne_empty_of_isArrayLike hLike
    · exact Ty.noConfusion
  | _ => exact Ty.noConfusion

theorem ofName_ne_empty {t : Tree}
    (hReturns : ∀ id d, t.kind? id = some (.definition d) → d.returns ≠ .empty) (chain : Chain)
    (name : String) : (ofName t chain name).ty ≠ .empty := by
  rw [ofName]
  split
  · rename_i d hd
    obtain ⟨id, -, hk⟩ := Option.bind_eq_some_iff.mp hd
    rw [ofDefinition_eq]
    exact hReturns id d hk
  · exact Ty.noConfusion

end Value

/-- No value has the type `empty`, if no definition returns it. -/
theorem Tree.WellFormed.value_ne_empty {t : Tree} (h : t.WellFormed)
    (hReturns : ∀ id d, t.kind? id = some (.definition d) → d.returns ≠ .empty) (chain : Chain)
    (id : NodeId) : (t.value chain id).ty ≠ .empty := by
  induction id using Nat.strongRecOn with
  | ind id ih =>
    cases hk : t.kind? id with
    | none =>
      rw [value, valueAt, hk]
      exact Ty.noConfusion
    | some k =>
      rw [h.value_eq chain hk]
      exact Value.ofKind_ne_empty (fun c hc => ih c (h.child_lt hk hc))
        (Value.ofName_ne_empty hReturns chain)

theorem analyze_size {t : Tree} (hTree : t.WellFormed) {options : Options} {a : Annotations}
    (h : analyze t options = .ok a) : a.entries.size = t.size := by
  obtain ⟨hFollows, -⟩ := (usageLaw_holds .reads hTree).of_analyze hTree (booked_ofTree .reads t) h
  exact Booked.size hFollows.inv

/-- What the definitions of a parsed tree return is declared by the host, or nothing is known
of it. -/
theorem returns_ne_empty_of_parse {tokens : List Token} {file : String} {host : Host} {tree : Tree}
    (h : parse tokens file host = .ok tree) (hFunctions : ∀ f ∈ host.functions, f.returns ≠ .empty)
    (hConstants : ∀ c ∈ host.constants, c.ty ≠ .empty) (id : NodeId) (d : Definition)
    (hk : tree.kind? id = some (.definition d)) : d.returns ≠ .empty := by
  cases hd : d.isHost with
  | false =>
    cases d with
    | hostFunc name arity returns pure => cases hd
    | hostConst name ty => cases hd
    | _ => exact Ty.noConfusion
  | true =>
    rcases List.mem_append.mp (mem_definitions_of_parse h hk hd) with hMem | hMem
    · obtain ⟨f, hf, rfl⟩ := List.mem_map.mp hMem
      exact hFunctions f hf
    · obtain ⟨c, hc, rfl⟩ := List.mem_map.mp hMem
      exact hConstants c hc

/-- After an analysis no node has the type `empty`, if the host does not declare it of a function or
a constant. -/
theorem analyze_ne_empty {tokens : List Token} {file : String} {host : Host} {tree : Tree}
    (h : parse tokens file host = .ok tree) (hFunctions : ∀ f ∈ host.functions, f.returns ≠ .empty)
    (hConstants : ∀ c ∈ host.constants, c.ty ≠ .empty) (options : Options) :
    ∃ a, analyze tree options = .ok a ∧ a.entries.size = tree.size ∧
      ∀ e ∈ a.entries, e.note.ty ≠ .empty := by
  have hTree := parse_wellFormed h
  obtain ⟨a, fresh, ha, -⟩ := analyze_walked hTree options
  have hNoted := noted_of_analyze h ha
  have hSize := analyze_size hTree ha
  refine ⟨a, ha, hSize, fun e he => ?_⟩
  obtain ⟨id, hid, hEntry⟩ := Array.mem_iff_getElem.mp he
  have hNote : a.note id = e.note := by
    rw [Annotations.note, Annotations.note?, Annotations.get?, Array.getElem?_eq_getElem hid,
      hEntry]
    rfl
  rw [← hNote]
  change (a.note id).value.ty ≠ .empty
  cases hVisited : a.isVisited id with
  | false =>
    rw [hNoted.unvisited hVisited]
    exact Ty.noConfusion
  | true =>
    obtain ⟨place, hs⟩ := hTree.exists_place (hSize ▸ hid)
    rw [hNoted.valued hVisited place hs]
    exact hTree.value_ne_empty (returns_ne_empty_of_parse h hFunctions hConstants) place.chain id

/-- Elements of empty arrays, from a literal and from the host. -/
theorem analyze_ne_empty_elements : ∃ tokens tree a,
    tokenize "let x = [f, []][0][0]; let y = [[]][0] && f;" "a" = .ok tokens ∧
    parse tokens "a" ⟨[⟨"f", 0, .emptyArray, true⟩], []⟩ = .ok tree ∧
    analyze tree Options.standard = .ok a ∧
    [4, 6, 8, 16].map (fun n => (a.note n).ty) =
      [.array .emptyArray, .emptyArray, .any, .emptyArray] ∧
    ∀ e ∈ a.entries, e.note.ty ≠ .empty := by
  have hRun : (do
      let tokens ← tokenize "let x = [f, []][0][0]; let y = [[]][0] && f;" "a"
      let tree ← parse tokens "a" ⟨[⟨"f", 0, .emptyArray, true⟩], []⟩
      let a ← analyze tree Options.standard
      pure ([4, 6, 8, 16].map fun n => (a.note n).ty)) =
      Except.ok [.array .emptyArray, .emptyArray, .any, .emptyArray] := by
    cbv
  obtain ⟨tokens, tree, a, hTokens, hTree, ha, hTypes⟩ := exists_analysed hRun
  obtain ⟨b, hb, -, hNone⟩ := analyze_ne_empty hTree (by decide) (by decide) Options.standard
  obtain rfl : a = b := Except.ok.inj (ha.symm.trans hb)
  exact ⟨tokens, tree, a, hTokens, hTree, ha, hTypes, hNone⟩

end StageScript

import Mathlib
import StageScript.Proofs.Analysis.Value
import StageScript.Proofs.Lexical

/-!
# The analysis finds the values

The analysis keeps notes in a table, and a node is noted by what the table has of its parts at
that moment.  Still every node that it visits ends with its value (`Tree.value`): a node whose
note has the value never loses it (`Valuing.kept`), and a node gets it when it is walked
(`gives_nodeWith`), whatever has been walked before.

`Gives t a step post` says what a step does to the annotations `a`, if it ends well.
-/

namespace StageScript

namespace Note

def value (note : Note) : Value := ⟨note.ty, note.copied⟩

theorem value_array (free : Bool) (notes : List Note) :
    (array free notes).value = .array (notes.map value) := by
  simp only [array, value, Value.array, List.map_map, List.any_map]
  rfl

theorem value_unary (op : UnaryOp) (operand : Note) : (unary op operand).value = .unary op := by
  cases op <;> rfl

theorem value_binary (op : BinaryOp) (l r : Note) :
    (binary op l r).value = .binary op l.value r.value := by
  cases op <;> rfl

end Note

def Definition.returns : Definition → Ty
  | hostFunc _ _ returns _ => returns
  | hostConst _ ty => ty
  | _ => .any

theorem Value.ofDefinition_eq (d : Definition) : ofDefinition d = ⟨d.returns, !d.isHost⟩ := by
  cases d <;> rfl

def Annotations.returns (a : Annotations) (id : NodeId) : Ty :=
  ((a.state? id).map DefState.returns).getD .any

def Valued (t : Tree) (a : Annotations) (n : NodeId) : Prop :=
  ∀ place, Stands t place n → (a.note n).value = t.value place.chain n

/-- From `a` to `b` no value is lost, and every node that is visited gets its value. -/
structure Valuing (t : Tree) (a b : Annotations) : Prop where
  kept : ∀ n, Valued t a n → Valued t b n
  visited : ∀ n, b.visits n ≠ a.visits n → Valued t b n
  returns : ∀ n, b.returns n = a.returns n

/-- Nodes of which nothing is ever noted have their value, and definitions return what is
declared. -/
structure Apt (t : Tree) (a : Annotations) : Prop where
  plain : ∀ n k, t.kind? n = some k → (∀ chain part, Value.ofKind t chain part k = .unknown) →
    Valued t a n
  returns : ∀ n d, t.kind? n = some (.definition d) → a.returns n = d.returns

theorem Annotations.note?_visit (a : Annotations) (id n : NodeId) :
    (a.visit id).note? n = a.note? n := by
  rw [note?, note?, visit, get?_modify]
  split
  · cases a.get? n <;> rfl
  · rfl

theorem Annotations.state?_visit (a : Annotations) (id n : NodeId) :
    (a.visit id).state? n = a.state? n := by
  rw [state?, state?, visit, get?_modify]
  split
  · cases a.get? n <;> rfl
  · rfl

theorem valued_visit_iff {t : Tree} (a : Annotations) (id n : NodeId) :
    Valued t (a.visit id) n ↔ Valued t a n := by
  rw [Valued, Valued, Annotations.note, Annotations.note, Annotations.note?_visit]

namespace Valuing

variable {t : Tree} {a b c : Annotations}

theorem refl (a : Annotations) : Valuing t a a :=
  ⟨fun _ h => h, fun _ h => absurd rfl h, fun _ => rfl⟩

theorem trans (h : Valuing t a b) (g : Valuing t b c) : Valuing t a c := by
  refine ⟨fun n hn => g.kept n (h.kept n hn), fun n hn => ?_,
    fun n => (g.returns n).trans (h.returns n)⟩
  by_cases hb : b.visits n = a.visits n
  · exact g.visited n (hb ▸ hn)
  · exact g.kept n (h.visited n hb)

theorem apt (h : Valuing t a b) (ha : Apt t a) : Apt t b :=
  ⟨fun n k hk hp => h.kept n (ha.plain n k hk hp),
    fun n d hd => (h.returns n).trans (ha.returns n d hd)⟩

/-- One entry is changed: its value is left as it was, or is the right one. -/
theorem modify {id : NodeId} {e : Entry} {f : Entry → Entry} (he : a.get? id = some e)
    (hVisits : (f e).visits = e.visits)
    (hState : (f e).state.map DefState.returns = e.state.map DefState.returns)
    (hNote : (f e).note.value = e.note.value ∨
      ∀ place, Stands t place id → (f e).note.value = t.value place.chain id) :
    Valuing t a (a.modify id f) := by
  have hSelf := Annotations.get?_modify_self he f
  have hOther : ∀ n, id ≠ n → (a.modify id f).get? n = a.get? n :=
    fun n hn => a.get?_modify_of_ne hn f
  refine ⟨fun n hn => ?_, fun n hn => ?_, fun n => ?_⟩
  · by_cases hid : id = n
    · subst hid
      intro place hs
      have hOld := hn place hs
      rw [Annotations.note, Annotations.note?, he] at hOld
      rw [Annotations.note, Annotations.note?, hSelf]
      rcases hNote with hNote | hNote
      · exact hNote.trans hOld
      · exact hNote place hs
    · intro place hs
      rw [Annotations.note, Annotations.note?, hOther n hid]
      exact hn place hs
  · exact absurd (Annotations.visits_modify he hVisits n) hn
  · by_cases hid : id = n
    · subst hid
      simp only [Annotations.returns, Annotations.state?, hSelf, he, Option.bind_some, hState]
    · rw [Annotations.returns, Annotations.returns, Annotations.state?, Annotations.state?,
        hOther n hid]

/-- A node is visited first, and has its value in the end. -/
theorem of_visit {id : NodeId} (h : Valuing t (a.visit id) b) (hb : Valued t b id) :
    Valuing t a b := by
  refine ⟨fun n hn => h.kept n ((valued_visit_iff a id n).mpr hn), fun n hn => ?_, fun n => ?_⟩
  · by_cases hid : n = id
    · exact hid ▸ hb
    · exact h.visited n (a.visits_visit_of_ne hid ▸ hn)
  · rw [h.returns n, Annotations.returns, Annotations.state?_visit]
    rfl

end Valuing

theorem Apt.visit {t : Tree} {a : Annotations} (h : Apt t a) (id : NodeId) : Apt t (a.visit id) := by
  refine ⟨fun n k hk hp => (valued_visit_iff a id n).mpr (h.plain n k hk hp), fun n d hd => ?_⟩
  rw [Annotations.returns, Annotations.state?_visit]
  exact h.returns n d hd

/-! ### Steps -/

def Gives {α : Type} (t : Tree) (a : Annotations) (step : Analysis α)
    (post : α → Annotations → Prop) : Prop :=
  ∀ r b, step a = .ok (r, b) → Valuing t a b ∧ post r b

namespace Gives

variable {α β : Type} {t : Tree} {a : Annotations} {step : Analysis α} {next : α → Analysis β}
  {post : α → Annotations → Prop} {goal : β → Annotations → Prop}

theorem bind (h : Gives t a step post)
    (hNext : ∀ r b, Valuing t a b → post r b → Gives t b (next r) goal) :
    Gives t a (step >>= next) goal := by
  intro s c hc
  obtain ⟨⟨r, b⟩, hStep, hRest⟩ := exists_of_bind_eq_ok hc
  obtain ⟨hab, hr⟩ := h r b hStep
  obtain ⟨hbc, hs⟩ := hNext r b hab hr s c hRest
  exact ⟨hab.trans hbc, hs⟩

theorem pure (r : α) (h : post r a) : Gives t a (pure r) post := by
  intro s b hb
  cases hb
  exact ⟨.refl a, h⟩

theorem look (f : Annotations → α) : Gives t a (Analysis.look f) fun r b => r = f b := by
  intro s b hb
  cases hb
  exact ⟨.refl a, rfl⟩

theorem lift (found : Except Diagnostic α) :
    Gives t a (liftM found : Analysis α) fun r _ => found = .ok r := by
  intro r b hb
  obtain ⟨s, hFound, hs⟩ := exists_of_bind_eq_ok hb
  cases hs
  exact ⟨.refl a, hFound⟩

theorem update {f : Annotations → Except Diagnostic Annotations} {goal : Unit → Annotations → Prop}
    (h : ∀ b, f a = .ok b → Valuing t a b ∧ goal () b) : Gives t a (Analysis.update f) goal := by
  intro r b hb
  cases hf : f a with
  | error d =>
    rw [Analysis.update, hf] at hb
    cases hb
  | ok c =>
    rw [Analysis.update, hf] at hb
    cases hb
    exact h b hf

theorem weaken (h : Gives t a step post) {goal : α → Annotations → Prop}
    (hg : ∀ r b, Valuing t a b → post r b → goal r b) : Gives t a step goal := by
  intro r b hb
  obtain ⟨hab, hr⟩ := h r b hb
  exact ⟨hab, hg r b hab hr⟩

end Gives

namespace Analysis

variable {t : Tree} {options : Options} {a : Annotations} {place : Place} {id : NodeId}
  {walk : Walker}

theorem gives_updateNote {f : Note → Note}
    (h : ∀ note, (f note).value = note.value ∨
      ∀ place, Stands t place id → (f note).value = t.value place.chain id) :
    Gives t a (update fun a => a.updateNote id f) fun _ b =>
      ∃ note, b.note? id = some (f note) := by
  refine .update fun b hb => ?_
  rw [Annotations.updateNote] at hb
  cases he : a.get? id with
  | none =>
    rw [he] at hb
    cases hb
  | some e =>
    rw [he] at hb
    cases hb
    refine ⟨.modify he rfl rfl (h e.note), e.note, ?_⟩
    rw [Annotations.note?, Annotations.get?_modify_self he]
    rfl

theorem gives_annotate (hTree : t.WellFormed) (hs : Stands t place id) {note : Note}
    (h : note.value = t.value place.chain id) :
    Gives t a (annotate id note) fun _ b => Valued t b id := by
  have hAny : ∀ q, Stands t q id → note.value = t.value q.chain id := by
    intro q hq
    rw [h, hs.unique hTree hq]
  refine (gives_updateNote fun _ => Or.inr hAny).weaken ?_
  rintro _ b - ⟨_, hNote⟩ q hq
  rw [Annotations.note, hNote]
  exact hAny q hq

theorem gives_setEffectFree (free : Bool) :
    Gives t a (setEffectFree id free) fun _ _ => True := by
  have hNote : Gives t a (setEffectFree id free) fun _ b =>
      ∃ note : Note, b.note? id = some { note with effectFree := free } :=
    gives_updateNote fun _ => Or.inl rfl
  exact hNote.weaken fun _ _ _ _ => trivial

theorem gives_updateState {f : DefState → DefState} (h : ∀ s, (f s).returns = s.returns) :
    Gives t a (update fun a => a.updateState id f) fun _ _ => True := by
  refine .update fun b hb => ⟨?_, trivial⟩
  obtain ⟨s, hState, hRest⟩ := exists_of_bind_eq_ok hb
  cases hRest
  cases he : a.get? id with
  | none => simp [Annotations.state, Annotations.state?, he] at hState
  | some e =>
    refine .modify he rfl ?_ (Or.inl rfl)
    cases hs : e.state with
    | none => simp [Annotations.state, Annotations.state?, he, hs] at hState
    | some s' =>
      rw [state_of_get? he hs] at hState
      cases hState
      simp [h]

theorem gives_countUse {count : DefState → DefState} (h : ∀ s, (count s).returns = s.returns) :
    Gives t a (countUse t id count) fun _ _ => True := by
  refine (Gives.lift _).bind fun d b _ _ => ?_
  split
  · exact gives_updateState h
  · exact .pure () trivial

theorem gives_reach : Gives t a (reach id) fun _ _ => True := by
  refine (Gives.look _).bind fun found b _ _ => ?_
  refine (Gives.lift _).bind fun before c _ _ => ?_
  have hMark : Gives t c (update fun a => a.updateState id fun s => { s with unreachable := false })
      fun _ _ => True := gives_updateState fun _ => rfl
  exact hMark.bind fun _ _ _ _ => .pure _ trivial

/-! ### Walks -/

def Walker.Values (t : Tree) (walk : Walker) : Prop :=
  ∀ {place : Place} {id : NodeId} {a : Annotations}, Stands t place id → Apt t a →
    Gives t a (walk place.chain id) fun _ b => Valued t b id

theorem gives_walkAll {chain : Chain} {ids : List NodeId} (ha : Apt t a)
    (hEach : ∀ c ∈ ids, ∀ b, Apt t b → Gives t b (walk chain c) fun _ b => Valued t b c) :
    Gives t a (walkAll walk chain ids) fun _ b => ∀ c ∈ ids, Valued t b c := by
  induction ids generalizing a with
  | nil => exact .pure true nofun
  | cons c ids ih =>
    refine (hEach c List.mem_cons_self a ha).bind fun _ b hab hc => ?_
    refine (Gives.look _).bind fun first b' hb _ => ?_
    have hRest := ih ((hab.trans hb).apt ha) fun d hd => hEach d (List.mem_cons_of_mem c hd)
    refine hRest.bind fun rest e hbe hIds => .pure _ fun d hd => ?_
    rcases List.mem_cons.mp hd with rfl | hd
    · exact hbe.kept d (hb.kept d hc)
    · exact hIds d hd

theorem gives_resolve (hWalk : walk.Values t) (ha : Apt t a) {chain : Chain} {name : String}
    (hChain : ∀ declared d, chain.declaring? name = some (declared, d) →
      ∃ q, Stands t q d ∧ q.chain = declared) :
    Gives t a (resolve walk chain name) fun r _ => r = chain.find? name := by
  have hRun : Gives t a (resolve walk chain name) fun _ _ => True := by
    rw [resolve]
    cases hd : chain.declaring? name with
    | none => exact .pure none trivial
    | some found =>
      obtain ⟨declared, d⟩ := found
      obtain ⟨q, hq, rfl⟩ := hChain declared d hd
      refine gives_reach.bind fun again b hab _ => ?_
      cases again with
      | false => exact .pure _ trivial
      | true => exact (hWalk hq (hab.apt ha)).bind fun _ _ _ _ => .pure _ trivial
  exact fun r b hb => ⟨(hRun r b hb).1, resolve_eq_find? hb⟩

/-! ### Nodes -/

structure Noting (t : Tree) (walk : Walker) (place : Place) (id : NodeId) (k : NodeKind) : Prop where
  tree : t.WellFormed
  values : walk.Values t
  stands : Stands t place id
  kind : t.kind? id = some k

namespace Noting

variable {k : NodeKind}

/-- A part sees what its node sees, if the node is no block. -/
theorem part (h : Noting t walk place id k) (hb : ∀ stmts table, k ≠ .block stmts table) {c : NodeId}
    (hc : c ∈ k.children) (ha : Apt t a) :
    Gives t a (walk place.chain c) fun _ b => Valued t b c := by
  rw [← place.part_chain_of_ne_block hb c]
  exact h.values (.part h.stands h.kind hc) ha

theorem note_eq (h : Noting t walk place id k) (hb : ∀ stmts table, k ≠ .block stmts table)
    {c : NodeId} (hc : c ∈ k.children) (hv : Valued t a c) :
    (a.note c).value = t.value place.chain c := by
  rw [← place.part_chain_of_ne_block hb c]
  exact hv _ (.part h.stands h.kind hc)

theorem parts (h : Noting t walk place id k) (hb : ∀ stmts table, k ≠ .block stmts table)
    (ha : Apt t a) :
    Gives t a (walkAll walk place.chain k.children) fun _ b => ∀ c ∈ k.children, Valued t b c :=
  gives_walkAll ha fun _ hc _ hb' => h.part hb hc hb'

theorem annotate (h : Noting t walk place id k) {note : Note}
    (hNote : note.value = .ofKind t place.chain (t.value place.chain) k) :
    Gives t a (annotate id note) fun _ b => Valued t b id :=
  gives_annotate h.tree h.stands (hNote.trans (h.tree.value_eq place.chain h.kind).symm)

/-- A node without a note of its own keeps what it has. -/
theorem plain (h : Noting t walk place id k)
    (hk : ∀ chain part, Value.ofKind t chain part k = .unknown) (ha : Apt t a) {step : Analysis Unit}
    (hStep : Gives t a step fun _ _ => True) : Gives t a step fun _ b => Valued t b id :=
  hStep.weaken fun _ _ hab _ => hab.kept id (ha.plain id k h.kind hk)

theorem resolve (h : Noting t walk place id k) (ha : Apt t a) (name : String) :
    Gives t a (resolve walk place.chain name) fun r _ => r = place.chain.find? name :=
  gives_resolve h.values ha fun _ _ => h.stands.declaring?

/-- Two parts in turn, and a note by theirs. -/
theorem pair (h : Noting t walk place id k) {first second : NodeId}
    (hParts : k.children = [first, second]) (ha : Apt t a) {f : Note → Note → Note}
    (hb : ∀ stmts table, k ≠ .block stmts table)
    (hf : ∀ l r : Note, l.value = t.value place.chain first →
      r.value = t.value place.chain second →
      (f l r).value = .ofKind t place.chain (t.value place.chain) k) :
    Gives t a (do
        walk place.chain first
        walk place.chain second
        Analysis.annotate id (f (← note first) (← note second)))
      fun _ b => Valued t b id := by
  have hFirst : first ∈ k.children := by simp [hParts]
  have hSecond : second ∈ k.children := by simp [hParts]
  refine (h.part hb hFirst ha).bind fun _ b hab hv => ?_
  refine (h.part hb hSecond (hab.apt ha)).bind fun _ c hbc hw => ?_
  refine (Gives.look _).bind fun l c' hcc hl => (Gives.look _).bind fun r e hce hr => ?_
  refine h.annotate (hf l r ?_ ?_)
  · rw [hl]
    exact h.note_eq hb hFirst (hcc.kept _ (hbc.kept _ hv))
  · rw [hr]
    exact h.note_eq hb hSecond (hce.kept _ (hcc.kept _ hw))

/-- A name or a call has what its definition gives. -/
theorem reference (h : Noting t walk place id k) {name : String}
    (hk : ∀ part, Value.ofKind t place.chain part k = .ofName t place.chain name)
    (hb : ∀ stmts table, k ≠ .block stmts table) (ha : Apt t a) :
    Gives t a (reference t walk place.chain id name k.children) fun _ b => Valued t b id := by
  refine (h.resolve ha name).bind fun r b hab hr => ?_
  have hb' := hab.apt ha
  subst hr
  cases hf : place.chain.find? name with
  | none =>
    refine (h.parts hb hb').bind fun _ c _ _ => h.annotate ?_
    rw [hk, Value.ofName, hf]
    rfl
  | some target =>
    obtain ⟨d, hd⟩ := h.stands.find?_definition h.tree hf
    dsimp only
    rw [lift_bind (Tree.definition_of_kind? hd)]
    refine (Gives.look _).bind fun returns c hbc hReturns => (Gives.look _).bind fun found e _ _ => ?_
    refine (h.parts hb ?_).bind fun free f _ _ => ?_
    · exact Valuing.apt ‹_› (hbc.apt hb')
    have hRead : Gives t f (countRead t target) fun _ _ => True := gives_countUse fun _ => rfl
    refine hRead.bind fun _ _ _ _ => h.annotate ?_
    have hTy : returns = d.returns := hReturns.trans ((hbc.apt hb').returns target d hd)
    rw [hk, Value.ofName, hf, Option.bind_some, hd]
    exact hTy ▸ (Value.ofDefinition_eq d).symm

theorem definition {d : Definition} (h : Noting t walk place id (.definition d)) (ha : Apt t a) :
    Gives t a (definition walk place.chain id d) fun _ _ => True := by
  cases hb : d.body? with
  | none =>
    rw [definition_of_bodyless hb]
    split
    · exact gives_setEffectFree true
    · exact .pure () trivial
  | some body =>
    rw [definition_of_body? hb]
    exact (h.part (by simp) (NodeKind.mem_children_of_body? hb) ha).weaken fun _ _ _ _ => trivial

theorem countAssign (found : Option NodeId) :
    Gives t a (countAssign t found) fun _ _ => True := by
  cases found with
  | none => exact .pure () trivial
  | some d => exact gives_countUse fun _ => rfl

/-- The host starts routines from the root block. -/
theorem entries {stmts : List NodeId} {table : NameTable}
    (h : Noting t walk place id (.block stmts table)) (names : List String) (ha : Apt t a) :
    Gives t a (names.forM fun name => do
      let _ ← Analysis.resolve walk (table :: place.chain) name) fun _ _ => True := by
  induction names generalizing a with
  | nil => exact .pure () trivial
  | cons name names ih =>
    have hFirst : Gives t a (do let _ ← Analysis.resolve walk (table :: place.chain) name)
        fun _ _ => True :=
      (gives_resolve h.values ha fun _ _ => h.stands.declaring?_inside h.kind).bind
        fun _ _ _ _ => .pure () trivial
    exact hFirst.bind fun _ b hab _ => ih (hab.apt ha)

theorem block {stmts : List NodeId} {table : NameTable}
    (h : Noting t walk place id (.block stmts table)) (ha : Apt t a) :
    Gives t a (block t options walk place.chain id) fun _ _ => True := by
  have hStmts : ∀ b, Apt t b → Gives t b (do
      let _ ← walkAll walk (table :: place.chain) stmts) fun _ _ => True := by
    intro b hb
    refine (gives_walkAll hb fun c hc b' hb' => ?_).bind fun _ _ _ _ => .pure () trivial
    exact h.values (.part h.stands h.kind hc) hb'
  rw [Analysis.block, lift_bind (Tree.block_of_kind? h.kind)]
  dsimp only
  split
  · exact (h.entries _ ha).bind fun _ b hab _ => hStmts b (hab.apt ha)
  · exact hStmts a ha

end Noting

/-- A node is visited, and noted then. -/
theorem gives_visited {step : Analysis Unit}
    (h : Gives t (a.visit id) step fun _ b => Valued t b id) :
    Gives t a (visit id >>= fun _ => step) fun _ b => Valued t b id := by
  intro r b hb
  obtain ⟨hv, hid⟩ := h r b hb
  exact ⟨hv.of_visit hid, hid⟩

/-- A walk gives a node its value, if it gives the parts theirs. -/
theorem gives_nodeWith (hTree : t.WellFormed) (hWalk : walk.Values t) :
    Walker.Values t (nodeWith t options walk) := by
  intro place id a hs hApt
  obtain ⟨k, hk⟩ := Tree.exists_kind?_of_lt (hs.lt_size hTree)
  obtain ⟨node, hn, rfl⟩ := Tree.kind?_eq_some_iff.mp hk
  have h : Noting t walk place id node.kind := ⟨hTree, hWalk, hs, hk⟩
  have ha := hApt.visit id
  rw [nodeWith, lift_bind (Tree.node_of_get? hn)]
  refine gives_visited ?_
  obtain ⟨kind, span⟩ := node
  cases kind with
  | num value => exact h.annotate rfl
  | char value => exact h.annotate rfl
  | str value => exact h.annotate rfl
  | array elems =>
    refine (h.parts (by simp) ha).bind fun free b _ hElems => ?_
    refine (Gives.look _).bind fun notes c hbc hNotes => h.annotate ?_
    rw [Note.value_array, hNotes, List.map_map]
    refine congrArg Value.array (List.map_congr_left fun e he => ?_)
    exact h.note_eq (by simp) he (hbc.kept e (hElems e he))
  | unary op operand =>
    refine (h.part (by simp) List.mem_cons_self ha).bind fun _ b _ _ => ?_
    exact (Gives.look _).bind fun note _ _ _ => h.annotate (note.value_unary op)
  | binary op lhs rhs =>
    refine h.pair rfl ha (by simp) fun l r hl hr => ?_
    rw [Note.value_binary, hl, hr]
    rfl
  | ref name => exact h.reference (fun _ => rfl) (by simp) ha
  | call name args => exact h.reference (fun _ => rfl) (by simp) ha
  | element base index =>
    refine h.pair rfl ha (by simp) fun l r hl _ => ?_
    rw [Value.ofKind, ← hl]
    rfl
  | slice base bounds =>
    refine h.pair rfl ha (by simp) fun l r hl _ => ?_
    rw [Value.ofKind, ← hl]
    rfl
  | range start stop =>
    refine h.plain (fun _ _ => rfl) ha ?_
    refine (h.part (by simp) (by simp [NodeKind.children]) ha).bind fun _ b hab _ => ?_
    refine (h.part (by simp) (by simp [NodeKind.children]) (hab.apt ha)).bind fun _ c _ _ => ?_
    exact (Gives.look _).bind fun _ _ _ _ => (Gives.look _).bind fun _ _ _ _ =>
      gives_setEffectFree _
  | target name indices =>
    refine h.plain (fun _ _ => rfl) ha ((h.resolve ha name).bind fun found b hab _ => ?_)
    exact (h.parts (by simp) (hab.apt ha)).bind fun _ _ _ _ => Noting.countAssign found
  | assign op lhs rhs =>
    refine h.plain (fun _ _ => rfl) ha ?_
    refine (h.part (by simp) (by simp [NodeKind.children]) ha).bind fun _ b hab _ => ?_
    exact (h.part (by simp) (by simp [NodeKind.children]) (hab.apt ha)).bind fun _ _ _ _ =>
      gives_setEffectFree false
  | succ lhs | pred lhs =>
    exact h.plain (fun _ _ => rfl) ha ((h.part (by simp) (by simp [NodeKind.children]) ha).bind
      fun _ _ _ _ => gives_setEffectFree false)
  | varInit name rhs =>
    refine h.plain (fun _ _ => rfl) ha ((h.resolve ha name).bind fun found b hab _ => ?_)
    refine (h.part (by simp) (by simp [NodeKind.children]) (hab.apt ha)).bind fun _ _ _ _ => ?_
    exact (gives_setEffectFree false).bind fun _ _ _ _ => Noting.countAssign found
  | callStmt name args =>
    refine h.plain (fun _ _ => rfl) ha ((h.resolve ha name).bind fun found b hab _ => ?_)
    exact (h.parts (by simp) (hab.apt ha)).bind fun _ _ _ _ => .pure () trivial
  | block stmts table => exact h.plain (fun _ _ => rfl) ha (h.block ha)
  | definition d => exact h.plain (fun _ _ => rfl) ha (h.definition ha)
  | _ =>
    exact h.plain (fun _ _ => rfl) ha ((h.parts (by simp) ha).bind fun _ _ _ _ => .pure () trivial)

theorem gives_walkAt (hTree : t.WellFormed) (depth : Nat) :
    Walker.Values t (walkAt t options depth) := by
  induction depth with
  | zero => exact fun _ _ _ _ hb => nomatch hb
  | succ depth ih => exact gives_nodeWith hTree ih

end Analysis

/-! ### The whole analysis -/

theorem Annotations.value_ofTree (t : Tree) (n : NodeId) : ((ofTree t).note n).value = .unknown := by
  rw [note, note?, get?_ofTree]
  cases hn : t.get? n with
  | none => rfl
  | some node =>
    obtain ⟨kind, span⟩ := node
    cases kind with
    | definition d => cases d <;> rfl
    | _ => rfl

theorem apt_ofTree {t : Tree} (hTree : t.WellFormed) : Apt t (.ofTree t) := by
  refine ⟨fun n k hk hp place _ => ?_, fun n d hd => ?_⟩
  · rw [Annotations.value_ofTree, hTree.value_eq place.chain hk, hp]
  · obtain ⟨⟨kind, span⟩, hn, hKind⟩ := Tree.kind?_eq_some_iff.mp hd
    cases hKind
    rw [Annotations.returns, Annotations.state?, Annotations.get?_ofTree, hn]
    cases d <;> rfl

theorem analyze_valued {t : Tree} (hTree : t.WellFormed) {options : Options} {a : Annotations}
    (h : analyze t options = .ok a) {n : NodeId} (hn : a.isVisited n = true) : Valued t a n := by
  obtain ⟨stmts, table, hk⟩ := hTree.root_block
  have hRoot : Analysis.Noting t (Analysis.walkAt t options (Analysis.maxDepth t)) Place.outermost
      t.root (.block stmts table) := ⟨hTree, Analysis.gives_walkAt hTree _, .root, hk⟩
  have hApt := (apt_ofTree hTree).visit t.root
  obtain ⟨⟨u, b⟩, hRun, hEnd⟩ := exists_of_bind_eq_ok h
  cases hEnd
  obtain ⟨hv, hValued⟩ := hRoot.plain (fun _ _ => rfl) hApt (hRoot.block hApt) u a hRun
  refine (hv.of_visit hValued).visited n ?_
  rw [Annotations.visits_ofTree]
  exact Nat.ne_of_gt (of_decide_eq_true hn)

/-- The analysis finds the values.  The value of a node is a function of its kind, of the values
of its parts and of the tables that it sees, and every node that is visited ends with it. -/
theorem analyze_finds_values {tokens : List Token} {file : String} {host : Host} {tree : Tree}
    (h : parse tokens file host = .ok tree) (options : Options) :
    (∀ id k chain, tree.kind? id = some k →
      tree.value chain id = .ofKind tree chain (tree.value chain) k) ∧
    ∃ a, analyze tree options = .ok a ∧
      ∀ id k, tree.kind? id = some k → a.isVisited id = true →
        (∃! chain, tree.Sees id chain) ∧
        ∀ chain, tree.Sees id chain → ∃ note, a.note? id = some note ∧
          note.ty = (tree.value chain id).ty ∧ note.copied = (tree.value chain id).copied := by
  have hTree := parse_wellFormed h
  obtain ⟨a, fresh, hRun, hWalked⟩ := analyze_walked hTree options
  refine ⟨fun id k chain hk => hTree.value_eq chain hk, a, hRun, fun id k hk hid => ?_⟩
  refine ⟨hTree.exists_unique_sees (Tree.lt_size_of_kind? hk), ?_⟩
  rintro chain ⟨place, hs, rfl⟩
  obtain ⟨e, he, -⟩ := hWalked.carries.entry id k hk
  have hNote : a.note? id = some e.note := by
    rw [Annotations.note?, he]
    rfl
  have hValue := analyze_valued hTree hRun hid place hs
  rw [Annotations.note, hNote] at hValue
  exact ⟨e.note, hNote, congrArg Value.ty hValue, congrArg Value.copied hValue⟩

theorem analyze_finds_values_recursive : ∃ tokens tree a,
    tokenize "f([sin(1), 2]); function f(a) \x7b result = [f(a)] ~ \"\"; \x7d" "a" = .ok tokens ∧
    parse tokens "a" ⟨[⟨"sin", 1, .real, true⟩], []⟩ = .ok tree ∧
    analyze tree Options.standard = .ok a ∧
    tree.kind? 13 = some (.binary .cat 11 12) ∧ a.isVisited 13 = true ∧
    (∃! chain, tree.Sees 13 chain) ∧
    ∀ chain, tree.Sees 13 chain → tree.value chain 13 = ⟨.array .any, true⟩ := by
  have hRun : (do
      let tokens ←
        tokenize "f([sin(1), 2]); function f(a) \x7b result = [f(a)] ~ \"\"; \x7d" "a"
      let tree ← parse tokens "a" ⟨[⟨"sin", 1, .real, true⟩], []⟩
      let a ← analyze tree Options.standard
      pure (tree.kind? 13, a.isVisited 13, a.note? 13)) =
        Except.ok (some (.binary .cat 11 12), true, some ⟨false, .array .any, true⟩) := by
    cbv
  obtain ⟨tokens, hTokens, hRun⟩ := exists_of_bind_eq_ok hRun
  obtain ⟨tree, hTree, hRun⟩ := exists_of_bind_eq_ok hRun
  obtain ⟨a, ha, hRun⟩ := exists_of_bind_eq_ok hRun
  obtain ⟨hKind, hRun⟩ := Prod.mk.inj (Except.ok.inj hRun)
  obtain ⟨hVisited, hNote⟩ := Prod.mk.inj hRun
  obtain ⟨-, b, hb, hValues⟩ := analyze_finds_values hTree Options.standard
  obtain rfl : a = b := Except.ok.inj (ha.symm.trans hb)
  obtain ⟨hOne, hEach⟩ := hValues 13 _ hKind hVisited
  refine ⟨tokens, tree, a, hTokens, hTree, ha, hKind, hVisited, hOne, fun chain hSees => ?_⟩
  obtain ⟨note, hFound, hTy, hCopied⟩ := hEach chain hSees
  rw [hNote] at hFound
  cases hFound
  exact (congrArg₂ Value.mk hTy hCopied).symm

end StageScript

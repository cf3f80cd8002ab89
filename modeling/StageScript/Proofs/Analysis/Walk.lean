import StageScript.Analysis.Walk
import StageScript.Proofs.Analysis.Trail

/-!
# Walks leave trails

Every step of an analysis of a well-formed tree ends, if it may go deep enough, and leaves a
trail (`Runs`).  A walk of a node visits the node and everything below it
(`runs_nodeWith`); a name that is looked up is reached, and walked if it was not reached
before (`runs_resolve`).  How deep a walk can go is bounded by the definitions that are not
reached yet (`Ready`), since between two first uses it only goes down.
-/

namespace StageScript

def Runs {α : Type} (t : Tree) (options : Options) (busy nodes : List NodeId) (a : Annotations)
    (step : Analysis α) (post : α → Annotations → Prop) : Prop :=
  ∃ r b fresh, step a = .ok (r, b) ∧ Walked t options busy nodes fresh a b ∧ post r b

/-- The annotations are those of the tree, and the definitions left need at most `room`. -/
structure Ready (t : Tree) (room : Nat) (a : Annotations) : Prop where
  carries : t.Carries a
  unreached_le : t.unreached a * (t.size + 1) ≤ room

section Rules

variable {α β : Type} {t : Tree} {options : Options} {busy nodes more : List NodeId}
  {a b : Annotations} {step : Analysis α} {next : α → Analysis β}
  {post : α → Annotations → Prop} {goal : β → Annotations → Prop} {room : Nat}

theorem Ready.walked {fresh : List NodeId} (h : Ready t room a)
    (hw : Walked t options busy nodes fresh a b) : Ready t room b :=
  ⟨hw.carries, Nat.le_trans (Nat.mul_le_mul_right _ (t.unreached_le fun _ => hw.mono))
    h.unreached_le⟩

namespace Runs

theorem bind (h : Runs t options busy nodes a step post)
    (hNext : ∀ r b fresh, Walked t options busy nodes fresh a b → post r b →
      Runs t options busy more b (next r) goal) :
    Runs t options busy (nodes ++ more) a (step >>= next) goal := by
  obtain ⟨r, b, fresh, hStep, hw, hp⟩ := h
  obtain ⟨s, c, later, hRun, hv, hg⟩ := hNext r b fresh hw hp
  refine ⟨s, c, fresh ++ later, ?_, hw.trans hv, hg⟩
  change (step a >>= fun p => next p.1 p.2) = _
  rw [hStep]
  exact hRun

theorem weaken (h : Runs t options busy nodes a step post) {goal : α → Annotations → Prop}
    (hg : ∀ r b, post r b → goal r b) : Runs t options busy nodes a step goal := by
  obtain ⟨r, b, fresh, hStep, hw, hp⟩ := h
  exact ⟨r, b, fresh, hStep, hw, hg r b hp⟩

theorem busier (h : Runs t options [] nodes a step post) (busy : List NodeId) :
    Runs t options busy nodes a step post := by
  obtain ⟨r, b, fresh, hStep, hw, hp⟩ := h
  exact ⟨r, b, fresh, hStep, hw.busier busy, hp⟩

theorem pure (h : t.Carries a) (r : α) (hp : post r a) :
    Runs t options busy [] a (pure r) post :=
  ⟨r, a, [], rfl, .refl h, hp⟩

theorem look (h : t.Carries a) (f : Annotations → α) :
    Runs t options busy [] a (Analysis.look f) fun r _ => r = f a :=
  ⟨f a, a, [], rfl, .refl h, rfl⟩

end Runs

end Rules

/-! ### Steps that visit nothing -/

namespace Analysis

theorem lift_bind {α β : Type} {found : Except Diagnostic α} {r : α} (h : found = .ok r)
    (next : α → Analysis β) : ((liftM found : Analysis α) >>= next) = next r := by
  rw [h]
  rfl

theorem update_of_ok {f : Annotations → Except Diagnostic Annotations} {a b : Annotations}
    (h : f a = .ok b) : update f a = .ok ((), b) := by
  rw [update, h]
  rfl

theorem state_of_get? {a : Annotations} {id : NodeId} {e : Entry} {s : DefState}
    (he : a.get? id = some e) (hs : e.state = some s) : a.state id = .ok s := by
  simp [Annotations.state, Annotations.state?, he, hs]

theorem updateState_of_get? {a : Annotations} {id : NodeId} {e : Entry} {s : DefState}
    (he : a.get? id = some e) (hs : e.state = some s) (f : DefState → DefState) :
    a.updateState id f = .ok (a.modify id fun e => { e with state := some (f s) }) := by
  rw [Annotations.updateState, state_of_get? he hs]
  rfl

variable {t : Tree} {options : Options} {busy : List NodeId} {a : Annotations} {id : NodeId}
  {k : NodeKind}

theorem runs_updateNote (h : t.Carries a) (hk : t.kind? id = some k) (hBusy : id ∈ busy)
    (f : Note → Note) :
    Runs t options busy [] a (update fun a => a.updateNote id f) fun _ _ => True := by
  obtain ⟨e, he, -⟩ := h.entry id k hk
  refine ⟨(), _, [], update_of_ok (b := a.modify id fun e => { e with note := f e.note }) ?_,
    .quiet h he rfl rfl (Or.inl hBusy), trivial⟩
  rw [Annotations.updateNote, he]

theorem runs_annotate (h : t.Carries a) (hk : t.kind? id = some k) (hBusy : id ∈ busy)
    (note : Note) : Runs t options busy [] a (annotate id note) fun _ _ => True :=
  runs_updateNote h hk hBusy _

theorem runs_setEffectFree (h : t.Carries a) (hk : t.kind? id = some k) (hBusy : id ∈ busy)
    (free : Bool) : Runs t options busy [] a (setEffectFree id free) fun _ _ => True :=
  runs_updateNote h hk hBusy _

theorem runs_countUse (h : t.Carries a) {d : Definition} (hd : t.kind? id = some (.definition d))
    {count : DefState → DefState} (hCount : ∀ s, (count s).unreachable = s.unreachable) :
    Runs t options busy [] a (countUse t id count) fun _ _ => True := by
  obtain ⟨e, he, hState⟩ := h.entry id _ hd
  obtain ⟨s, hs⟩ := hState rfl
  rw [countUse, lift_bind (Tree.definition_of_kind? hd)]
  split
  · refine ⟨(), _, [], update_of_ok (updateState_of_get? he hs count), ?_, trivial⟩
    refine .quiet h he rfl ?_ (Or.inr rfl)
    rw [hs, Option.map_some, Option.map_some, hCount]
  · exact .pure h () trivial

/-! ### Definitions -/

theorem definition_of_body? {walk : Walker} {chain : Chain} {d : Definition} {body : NodeId}
    (h : d.body? = some body) : definition walk chain id d = walk chain body := by
  cases d <;> cases h <;> rfl

theorem definition_of_bodyless {walk : Walker} {chain : Chain} {d : Definition}
    (h : d.body? = none) : definition walk chain id d =
      if d.isAssignable then setEffectFree id true else pure () := by
  cases d <;> first | rfl | cases h

/-! ### Names -/

/-- The walk that goes less than `depth` deep leaves the trail of the node it is given. -/
def Walker.Sound (t : Tree) (options : Options) (depth : Nat) (walk : Walker) : Prop :=
  ∀ {place : Place} {id : NodeId} {room : Nat} {a : Annotations}, Stands t place id →
    Alive t options id → Ready t room a → room + id < depth →
    Runs t options [] (subtree t.partsOf id) a (walk place.chain id) fun _ _ => True

theorem reach_of_get? {e : Entry} {s : DefState} (he : a.get? id = some e)
    (hs : e.state = some s) :
    reach id a = .ok (s.unreachable,
      a.modify id fun e => { e with state := some { s with unreachable := false } }) := by
  have hUpdate := update_of_ok (f := fun a => a.updateState id fun s => { s with unreachable := false })
    (updateState_of_get? he hs _)
  change ((liftM (a.state id) : Analysis DefState) >>= fun before =>
    update (fun a => a.updateState id fun s => { s with unreachable := false }) >>= fun _ =>
      pure before.unreachable) a = _
  rw [lift_bind (state_of_get? he hs)]
  change (update _ a >>= fun p => _) = _
  rw [hUpdate]
  rfl

/-- What a name in the given tables stands for is a live definition, and stands there. -/
def Scoped (t : Tree) (options : Options) (chain : Chain) (name : String) : Prop :=
  ∀ declared d, chain.declaring? name = some (declared, d) → Live t options (.definition d) ∧
    (∃ e, t.kind? d = some (.definition e)) ∧ ∃ q, Stands t q d ∧ q.chain = declared

/-- After the first use of a definition there is room for it. -/
theorem ready_of_marks {room : Nat} {b : Annotations} {d : NodeId} {e : Definition}
    (h : Ready t room a) (hm : Marks t d a b) (hd : t.kind? d = some (.definition e)) :
    t.size + 1 ≤ room ∧ Ready t (room - (t.size + 1)) b := by
  have hLe : (t.unreached b + 1) * (t.size + 1) ≤ room :=
    Nat.le_trans (Nat.mul_le_mul_right _ (Tree.unreached_lt hm hd)) h.unreached_le
  rw [Nat.succ_mul] at hLe
  exact ⟨Nat.le_trans (Nat.le_add_left _ _) hLe, hm.carries, Nat.le_sub_of_add_le hLe⟩

theorem runs_resolve {walk : Walker} {depth room : Nat}
    (hWalk : walk.Sound t options depth) (hReady : Ready t room a) (hRoom : room ≤ depth)
    {chain : Chain} {name : String} (hScope : Scoped t options chain name) :
    Runs t options busy [] a (resolve walk chain name) fun r b =>
      r = chain.find? name ∧ ∀ d, r = some d → b.isReachable d = true := by
  rw [resolve, Chain.find?_eq_declaring?]
  cases hf : chain.declaring? name with
  | none => exact .pure hReady.carries none ⟨rfl, nofun⟩
  | some found =>
    obtain ⟨declared, d⟩ := found
    obtain ⟨hLive, ⟨e, hd⟩, q, hq, rfl⟩ := hScope declared d hf
    obtain ⟨entry, he, hState⟩ := hReady.carries.entry d _ hd
    obtain ⟨s, hs⟩ := hState rfl
    have hReach := reach_of_get? he hs
    cases hu : s.unreachable with
    | false =>
      have hQuiet : Walked t options busy [] [] a
          (a.modify d fun e => { e with state := some { s with unreachable := false } }) := by
        refine .quiet hReady.carries he rfl ?_ (Or.inr rfl)
        rw [hs, Option.map_some, Option.map_some, hu]
      refine ⟨some d, _, [], ?_, hQuiet, rfl, ?_⟩
      · change (reach d a >>= fun p => _) = _
        rw [hReach, hu]
        rfl
      · rintro d' ⟨⟩
        refine hQuiet.mono ?_
        simp [Annotations.isReachable, Annotations.state?, he, hs, hu]
    | true =>
      have hm := marks_modify hReady.carries he hs hu
      obtain ⟨hSize, hNext⟩ := ready_of_marks hReady hm hd
      have hDeep : room - (t.size + 1) + d < depth :=
        (fun (n : Nat) (hn : n < t.size) => by omega : ∀ n : Nat, n < t.size →
          room - (t.size + 1) + n < depth) d (Tree.lt_size_of_kind? hd)
      obtain ⟨r, b, fresh, hRun, hw, -⟩ :=
        hWalk hq (.of_live_definition hd hLive) hNext hDeep
      refine ⟨some d, b, d :: fresh, ?_, .enter hm hLive hw, rfl, ?_⟩
      · change (reach d a >>= fun p => _) = _
        rw [hReach, hu]
        change (walk q.chain d _ >>= fun p => _) = _
        rw [hRun]
        rfl
      · rintro d' ⟨⟩
        exact hw.mono ((hm.reached d).mpr (Or.inl rfl))

/-! ### Nodes -/

section Node

variable {walk : Walker} {depth room : Nat} {place : Place}

theorem runs_walkAll {chain : Chain} {ids : List NodeId} (hReady : Ready t room a)
    (hEach : ∀ c ∈ ids, ∀ b, Ready t room b →
      Runs t options busy (subtree t.partsOf c) b (walk chain c) fun _ _ => True) :
    Runs t options busy (ids.flatMap (subtree t.partsOf)) a (walkAll walk chain ids)
      fun _ _ => True := by
  induction ids generalizing a with
  | nil => exact .pure hReady.carries true trivial
  | cons c ids ih =>
    have hRest : ∀ b, Ready t room b → Runs t options busy (ids.flatMap (subtree t.partsOf)) b
        (do
          let first ← note c
          let rest ← walkAll walk chain ids
          return first.effectFree && rest) fun _ _ => True := by
      intro b hb
      have hIds := ih hb fun d hd => hEach d (List.mem_cons_of_mem c hd)
      have hEnd := hIds.bind fun r b' fresh hw _ =>
        (Runs.pure hw.carries (((b.note c).effectFree && r)) trivial :
          Runs t options busy [] b' _ fun _ _ => True)
      rw [List.append_nil] at hEnd
      exact hEnd
    exact (hEach c List.mem_cons_self a hReady).bind fun _ b _ hw _ => hRest b (hReady.walked hw)

/-- A node is visited first, and its parts are walked then. -/
theorem runs_visited (hTree : t.WellFormed) (hk : t.kind? id = some k) (hReady : Ready t room a)
    {step : Analysis Unit}
    (hStep : ∀ b, Ready t room b →
      Runs t options [id] (k.children.flatMap (subtree t.partsOf)) b step
        fun _ c => Settled t options c id) :
    Runs t options [] (subtree t.partsOf id) a (visit id >>= fun _ => step) fun _ _ => True := by
  have hVisit : Runs t options [id] [id] a (visit id) fun _ _ => True :=
    ⟨(), _, [], rfl, .visit hReady.carries hk List.mem_cons_self, trivial⟩
  obtain ⟨r, b, fresh, hRun, hw, hs⟩ := hVisit.bind fun _ b _ hw _ => hStep b (hReady.walked hw)
  rw [hTree.partsOf_falls.subtree_eq, Tree.partsOf_of_kind? hk]
  exact ⟨r, b, fresh, hRun, hw.done List.mem_cons_self hs, trivial⟩

structure Entered (t : Tree) (options : Options) (walk : Walker) (depth room : Nat)
    (place : Place) (id : NodeId) (k : NodeKind) : Prop where
  tree : t.WellFormed
  sound : walk.Sound t options depth
  stands : Stands t place id
  alive : Alive t options id
  kind : t.kind? id = some k
  room : room + id < depth + 1

namespace Entered

/-- A part is walked where it stands. -/
theorem part (h : Entered t options walk depth room place id k) {chain : Chain} {c : NodeId}
    (hc : c ∈ k.children) (hChain : (place.part k c).chain = chain) (hReady : Ready t room a) :
    Runs t options [id] (subtree t.partsOf c) a (walk chain c) fun _ _ => True := by
  have hDeep : room + c < depth :=
    Nat.lt_of_lt_of_le (Nat.add_lt_add_left (h.tree.child_lt h.kind hc) room)
      (Nat.le_of_lt_succ h.room)
  rw [← hChain]
  exact (h.sound (.part h.stands h.kind hc) (h.alive.part h.tree h.kind hc) hReady
    hDeep).busier [id]

theorem parts (h : Entered t options walk depth room place id k) {chain : Chain}
    {ids : List NodeId} (hIds : ∀ c ∈ ids, c ∈ k.children)
    (hChain : ∀ c, (place.part k c).chain = chain) (hReady : Ready t room a) :
    Runs t options [id] (ids.flatMap (subtree t.partsOf)) a (walkAll walk chain ids)
      fun _ _ => True :=
  runs_walkAll hReady fun c hc _ hb => h.part (hIds c hc) (hChain c) hb

/-- Two parts in turn, and a step that visits nothing. -/
theorem pair (h : Entered t options walk depth room place id k) {chain : Chain}
    {first second : NodeId} {step : Analysis Unit} (hParts : k.children = [first, second])
    (hChain : ∀ c, (place.part k c).chain = chain) (hReady : Ready t room a)
    (hStep : ∀ b, t.Carries b → Runs t options [id] [] b step fun _ _ => True) :
    Runs t options [id] (k.children.flatMap (subtree t.partsOf)) a
      (do walk chain first; walk chain second; step) fun _ _ => True := by
  have hFirst : first ∈ k.children := by simp [hParts]
  have hSecond : second ∈ k.children := by simp [hParts]
  rw [hParts]
  exact (h.part hFirst (hChain _) hReady).bind fun _ b _ hw _ =>
    (h.part hSecond (hChain _) (hReady.walked hw)).bind fun _ c _ hv _ => hStep c hv.carries

/-- One part, and a step that visits nothing. -/
theorem single (h : Entered t options walk depth room place id k) {chain : Chain}
    {only : NodeId} {step : Analysis Unit} (hParts : k.children = [only])
    (hChain : ∀ c, (place.part k c).chain = chain) (hReady : Ready t room a)
    (hStep : ∀ b, t.Carries b → Runs t options [id] [] b step fun _ _ => True) :
    Runs t options [id] (k.children.flatMap (subtree t.partsOf)) a
      (do walk chain only; step) fun _ _ => True := by
  have hOnly : only ∈ k.children := by simp [hParts]
  rw [hParts]
  exact (h.part hOnly (hChain _) hReady).bind fun _ b _ hw _ => hStep b hw.carries

/-- What a node refers to is live, and a definition. -/
theorem in_scope (h : Entered t options walk depth room place id k) {name : String}
    (hu : k.used? = some name) : Scoped t options place.chain name := by
  have hPlain : k.isDefinition = false := by
    cases k <;> simp_all [NodeKind.used?, NodeKind.isDefinition]
  intro declared d hd
  have hf : place.chain.find? name = some d := by
    rw [Chain.find?_eq_declaring?, hd]
    rfl
  exact ⟨.used (h.alive.node k h.kind hPlain) h.kind hu h.stands hf,
    h.stands.find?_definition h.tree hf, h.stands.declaring? hd⟩

/-- A node with a name refers to what the name stands for. -/
theorem refers_named (h : Entered t options walk depth room place id k) {name : String}
    (hu : k.used? = some name) {d : NodeId} (hd : Refers t options id d) :
    place.chain.find? name = some d := by
  have hk := h.kind
  cases hd with
  | entry hr _ _ =>
    rw [hr] at hk
    cases hk
    cases hu
  | used hl hUsed hq hf =>
    rw [hl] at hk
    cases hk
    rw [hu] at hUsed
    cases hUsed
    rw [h.stands.unique h.tree hq]
    exact hf

/-- A node that refers to a name has it looked up before its parts are walked. -/
theorem named (h : Entered t options walk depth room place id k) (hReady : Ready t room a)
    {name : String} (hu : k.used? = some name) {nodes : List NodeId}
    {next : Option NodeId → Analysis Unit}
    (hNext : ∀ b, Ready t room b →
      Runs t options [id] nodes b (next (place.chain.find? name)) fun _ _ => True) :
    Runs t options [id] nodes a (resolve walk place.chain name >>= next)
      fun _ c => Settled t options c id := by
  have hResolve : Runs t options [id] [] a (resolve walk place.chain name) fun r b =>
      r = place.chain.find? name ∧ ∀ d, r = some d → b.isReachable d = true :=
    runs_resolve h.sound hReady
      (Nat.le_trans (Nat.le_add_right room id) (Nat.le_of_lt_succ h.room)) (h.in_scope hu)
  obtain ⟨r, b, fresh, hRun, hw, rfl, hReached⟩ := hResolve
  obtain ⟨u, c, later, hRest, hv, -⟩ := hNext b (hReady.walked hw)
  refine ⟨u, c, fresh ++ later, ?_, hw.trans hv, ?_⟩
  · change (resolve walk place.chain name a >>= fun p => next p.1 p.2) = _
    rw [hRun]
    exact hRest
  · intro d hd
    exact hv.mono (hReached d (h.refers_named hu hd))

/-- A node that refers to nothing has nothing to settle. -/
theorem unnamed (h : Entered t options walk depth room place id k) (hu : k.used? = none)
    (hb : ∀ stmts table, k ≠ .block stmts table) {α : Type} {nodes : List NodeId}
    {step : Analysis α} {post : α → Annotations → Prop}
    (hStep : Runs t options [id] nodes a step post) :
    Runs t options [id] nodes a step fun _ c => Settled t options c id := by
  refine hStep.weaken fun _ c _ d hd => ?_
  have hk := h.kind
  cases hd with
  | entry hr _ _ =>
    rw [hr] at hk
    cases hk
    exact absurd rfl (hb _ _)
  | used hl hUsed _ _ =>
    rw [hl] at hk
    cases hk
    rw [hu] at hUsed
    cases hUsed

theorem reference (h : Entered t options walk depth room place id k) {name : String}
    (hu : k.used? = some name) (hChain : ∀ c, (place.part k c).chain = place.chain)
    (hReady : Ready t room a) :
    Runs t options [id] (k.children.flatMap (subtree t.partsOf)) a
      (reference t walk place.chain id name k.children) fun _ c => Settled t options c id := by
  refine h.named hReady hu fun b hb => ?_
  have hArgs : ∀ c, Ready t room c →
      Runs t options [id] (k.children.flatMap (subtree t.partsOf)) c
        (walkAll walk place.chain k.children) fun _ _ => True :=
    fun c hc => h.parts (fun _ hm => hm) hChain hc
  cases hf : place.chain.find? name with
  | none =>
    have hEnd := (hArgs b hb).bind fun _ c _ hw _ =>
      runs_annotate hw.carries h.kind List.mem_cons_self Note.unknown
    rw [List.append_nil] at hEnd
    exact hEnd
  | some target =>
    obtain ⟨d, hd⟩ := h.stands.find?_definition h.tree hf
    have hRead : ∀ c, t.Carries c →
        Runs t options [id] [] c (countRead t target) fun _ _ => True :=
      fun c hc => runs_countUse hc hd fun _ => rfl
    dsimp only
    rw [lift_bind (Tree.definition_of_kind? hd)]
    refine (Runs.look hb.carries _).bind fun returns c _ hw _ => ?_
    refine (Runs.look hw.carries _).bind fun free c' _ hw' _ => ?_
    have hEnd := (hArgs c' ((hb.walked hw).walked hw')).bind fun argsFree e _ hv _ =>
      (hRead e hv.carries).bind fun _ _ _ hv' _ =>
        runs_annotate hv'.carries h.kind List.mem_cons_self
          ⟨free.effectFree && argsFree, returns, !d.isHost⟩
    rw [List.append_nil, List.append_nil] at hEnd
    exact hEnd

theorem definition {d : Definition}
    (h : Entered t options walk depth room place id (.definition d)) (hReady : Ready t room a) :
    Runs t options [id] ((NodeKind.definition d).children.flatMap (subtree t.partsOf)) a
      (definition walk place.chain id d) fun _ _ => True := by
  cases hb : d.body? with
  | none =>
    rw [definition_of_bodyless hb, NodeKind.children, hb]
    split
    · exact runs_setEffectFree hReady.carries h.kind List.mem_cons_self true
    · exact .pure hReady.carries () trivial
  | some body =>
    have hBody : body ∈ (NodeKind.definition d).children := by simp [NodeKind.children, hb]
    have hPart : Runs t options [id] (subtree t.partsOf body) a (walk place.chain body)
        fun _ _ => True := h.part hBody rfl hReady
    rw [definition_of_body? hb, NodeKind.children, hb]
    simpa using hPart

/-- Parts that are walked for their own sake. -/
theorem discard (h : Entered t options walk depth room place id k) {chain : Chain}
    (hChain : ∀ c ∈ k.children, (place.part k c).chain = chain) (hReady : Ready t room a) :
    Runs t options [id] (k.children.flatMap (subtree t.partsOf)) a
      (do let _ ← walkAll walk chain k.children) fun _ _ => True := by
  have hAll := runs_walkAll hReady fun c hc _ hb => h.part hc (hChain c hc) hb
  have hEnd := hAll.bind fun _ e _ hw _ =>
    (Runs.pure hw.carries () trivial : Runs t options [id] [] e _ fun _ _ => True)
  rw [List.append_nil] at hEnd
  exact hEnd

theorem countAssign (h : Entered t options walk depth room place id k) (name : String)
    (hCarries : t.Carries a) :
    Runs t options [id] [] a (countAssign t (place.chain.find? name)) fun _ _ => True := by
  cases hf : place.chain.find? name with
  | none => exact .pure hCarries () trivial
  | some target =>
    obtain ⟨d, hd⟩ := h.stands.find?_definition h.tree hf
    exact runs_countUse hCarries hd fun _ => rfl

/-- The host starts entry routines from the root block. -/
theorem entries {stmts : List NodeId} {table : NameTable}
    (h : Entered t options walk depth room Place.outermost t.root (.block stmts table))
    (names : List String) (hNames : ∀ name ∈ names, name ∈ options.entryRoutines)
    (hReady : Ready t room a) :
    Runs t options [t.root] [] a
      (names.forM fun name => do let _ ← resolve walk [table] name) fun _ b =>
        ∀ name ∈ names, ∀ d, table.find? name = some d → b.isReachable d = true := by
  induction names generalizing a with
  | nil => exact .pure hReady.carries () nofun
  | cons name names ih =>
    have hScope : Scoped t options [table] name := by
      intro declared d hd
      obtain ⟨own, outer, rfl, hSuffix, hf⟩ := Chain.declaring?_suffix hd
      obtain ⟨rfl, rfl⟩ : own = table ∧ outer = [] := by
        simpa [List.suffix_cons_iff] using hSuffix
      have hMem : d ∈ own.entries.map Prod.snd :=
        List.mem_map.mpr ⟨_, NameTable.mem_of_find? hf, rfl⟩
      exact ⟨.entry h.kind (hNames name List.mem_cons_self) hf, h.tree.entry_definition h.kind hMem,
        _, .entry .root h.kind hMem, rfl⟩
    have hRoom : room ≤ depth := Nat.le_trans (Nat.le_add_right _ _) (Nat.le_of_lt_succ h.room)
    have hFirst : Runs t options [t.root] [] a (do let _ ← resolve walk [table] name)
        fun _ b => ∀ d, table.find? name = some d → b.isReachable d = true := by
      refine (runs_resolve h.sound hReady hRoom hScope).bind fun r b _ hw hr => ?_
      refine .pure hw.carries () fun d hd => hr.2 d (hr.1.trans ?_)
      simp [Chain.find?, hd]
    refine hFirst.bind fun _ b _ hw hReached => ?_
    obtain ⟨u, c, fresh, hRun, hv, hRest⟩ :=
      ih (fun other ho => hNames other (List.mem_cons_of_mem name ho)) (hReady.walked hw)
    refine ⟨u, c, fresh, hRun, hv, fun other ho d hd => ?_⟩
    rcases List.mem_cons.mp ho with rfl | ho
    · exact hv.mono (hReached d hd)
    · exact hRest other ho d hd

/-- A block refers to nothing, the root block apart. -/
theorem refers_block {stmts : List NodeId} {table : NameTable}
    (h : Entered t options walk depth room place id (.block stmts table)) {d : NodeId}
    (hd : Refers t options id d) :
    id = t.root ∧ ∃ name ∈ options.entryRoutines, table.find? name = some d := by
  have hk := h.kind
  cases hd with
  | entry hr hName hf =>
    rw [hr] at hk
    cases hk
    exact ⟨rfl, _, hName, hf⟩
  | used hl hUsed _ _ =>
    rw [hl] at hk
    cases hk
    cases hUsed

theorem block {stmts : List NodeId} {table : NameTable}
    (h : Entered t options walk depth room place id (.block stmts table))
    (hReady : Ready t room a) :
    Runs t options [id] ((NodeKind.block stmts table).children.flatMap (subtree t.partsOf)) a
      (block t options walk place.chain id) fun _ c => Settled t options c id := by
  have hStmts : ∀ c, Ready t room c →
      Runs t options [id] (stmts.flatMap (subtree t.partsOf)) c
        (do let _ ← walkAll walk (table :: place.chain) stmts) fun _ _ => True :=
    fun c hc => h.discard (fun _ _ => rfl) hc
  rw [Analysis.block, lift_bind (Tree.block_of_kind? h.kind)]
  dsimp only
  split
  · rename_i hEmpty
    have hChain : place.chain = [] := List.isEmpty_iff.mp hEmpty
    obtain rfl := h.stands.eq_root h.tree hChain
    obtain rfl := h.stands.unique h.tree .root
    refine (h.entries options.entryRoutines (fun _ hm => hm) hReady).bind fun _ b _ hw hEntries => ?_
    obtain ⟨u, c, fresh, hRun, hv, -⟩ := hStmts b (hReady.walked hw)
    refine ⟨u, c, fresh, hRun, hv, fun d hd => ?_⟩
    obtain ⟨-, name, hName, hf⟩ := h.refers_block hd
    exact hv.mono (hEntries name hName d hf)
  · rename_i hInner
    refine (hStmts a hReady).weaken fun _ _ _ d hd => ?_
    obtain ⟨rfl, -⟩ := h.refers_block hd
    obtain rfl := h.stands.unique h.tree .root
    exact absurd rfl hInner

end Entered

/-- The walk of a node visits it and everything below it. -/
theorem runs_nodeWith (hTree : t.WellFormed) (hWalk : walk.Sound t options depth) :
    Walker.Sound t options (depth + 1) (nodeWith t options walk) := by
  intro place id room a hs hAlive hReady hRoom
  obtain ⟨k, hk⟩ := Tree.exists_kind?_of_lt (hs.lt_size hTree)
  have h : Entered t options walk depth room place id k := ⟨hTree, hWalk, hs, hAlive, hk, hRoom⟩
  obtain ⟨node, hn, rfl⟩ := Tree.kind?_eq_some_iff.mp hk
  rw [nodeWith, lift_bind (Tree.node_of_get? hn)]
  refine runs_visited hTree hk hReady fun b hb => ?_
  have hAnnotate : ∀ note c, t.Carries c →
      Runs t options [id] [] c (annotate id note) fun _ _ => True :=
    fun note c hc => runs_annotate hc hk List.mem_cons_self note
  have hEffect : ∀ free c, t.Carries c →
      Runs t options [id] [] c (setEffectFree id free) fun _ _ => True :=
    fun free c hc => runs_setEffectFree hc hk List.mem_cons_self free
  have hLook : ∀ {x : NodeId} {next : Note → Analysis Unit},
      (∀ n c, t.Carries c → Runs t options [id] [] c (next n) fun _ _ => True) →
      ∀ c, t.Carries c → Runs t options [id] [] c (note x >>= next) fun _ _ => True :=
    fun hNext c hc => (Runs.look hc _).bind fun n _ _ hw _ => hNext n _ hw.carries
  obtain ⟨kind, span⟩ := node
  cases kind with
  | num value => exact h.unnamed rfl (by simp) (hAnnotate _ b hb.carries)
  | char value => exact h.unnamed rfl (by simp) (hAnnotate _ b hb.carries)
  | str value => exact h.unnamed rfl (by simp) (hAnnotate _ b hb.carries)
  | array elems =>
    have hParts : Runs t options [id] (elems.flatMap (subtree t.partsOf)) b
        (walkAll walk place.chain elems) fun _ _ => True := h.parts (fun _ hm => hm) (fun _ => rfl) hb
    have hEnd := hParts.bind fun free c _ hw _ =>
      (Runs.look hw.carries fun a => elems.map a.note).bind fun notes _ _ hv _ =>
        hAnnotate (.array free notes) _ hv.carries
    rw [List.append_nil, List.append_nil] at hEnd
    exact h.unnamed rfl (by simp) hEnd
  | unary op operand =>
    exact h.unnamed rfl (by simp) (h.single rfl (fun _ => rfl) hb (hLook fun _ => hAnnotate _))
  | binary op lhs rhs =>
    exact h.unnamed rfl (by simp)
      (h.pair rfl (fun _ => rfl) hb (hLook fun _ => hLook fun _ => hAnnotate _))
  | ref name => exact h.reference rfl (fun _ => rfl) hb
  | call name args => exact h.reference rfl (fun _ => rfl) hb
  | element base index =>
    exact h.unnamed rfl (by simp)
      (h.pair rfl (fun _ => rfl) hb (hLook fun _ => hLook fun _ => hAnnotate _))
  | range start stop =>
    exact h.unnamed rfl (by simp)
      (h.pair rfl (fun _ => rfl) hb (hLook fun _ => hLook fun _ => hEffect _))
  | slice base bounds =>
    exact h.unnamed rfl (by simp)
      (h.pair rfl (fun _ => rfl) hb (hLook fun _ => hLook fun _ => hAnnotate _))
  | target name indices =>
    refine h.named hb rfl fun c hc => ?_
    have hParts : Runs t options [id] (indices.flatMap (subtree t.partsOf)) c
        (walkAll walk place.chain indices) fun _ _ => True :=
      h.parts (fun _ hm => hm) (fun _ => rfl) hc
    have hEnd := hParts.bind fun _ e _ hw _ => h.countAssign name hw.carries
    rw [List.append_nil] at hEnd
    exact hEnd
  | assign op lhs rhs => exact h.unnamed rfl (by simp) (h.pair rfl (fun _ => rfl) hb (hEffect false))
  | succ lhs => exact h.unnamed rfl (by simp) (h.single rfl (fun _ => rfl) hb (hEffect false))
  | pred lhs => exact h.unnamed rfl (by simp) (h.single rfl (fun _ => rfl) hb (hEffect false))
  | varInit name rhs =>
    refine h.named hb rfl fun c hc => h.single rfl (fun _ => rfl) hc fun e he => ?_
    exact (hEffect false e he).bind fun _ _ _ hw _ => h.countAssign name hw.carries
  | callStmt name args => exact h.named hb rfl fun c hc => h.discard (fun _ _ => rfl) hc
  | block stmts table => exact h.block hb
  | definition d => exact h.unnamed rfl (by simp) (h.definition hb)
  | _ => exact h.unnamed rfl (by simp) (h.discard (fun c _ => place.part_chain_of_ne_block (by simp) c) hb)

end Node

/-- Every walk leaves its trail. -/
theorem sound_walkAt (hTree : t.WellFormed) (depth : Nat) :
    Walker.Sound t options depth (walkAt t options depth) := by
  induction depth with
  | zero => exact fun _ _ _ hRoom => absurd hRoom (Nat.not_lt_zero _)
  | succ depth ih => exact runs_nodeWith hTree ih

end Analysis

end StageScript

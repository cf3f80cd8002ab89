import Mathlib
import StageScript.Proofs.Analysis.Phases
import StageScript.Proofs.Analysis.Reach
import StageScript.Proofs.Tree.Renamed

/-!
# Analyses of trees that differ in their numbers

An analysis looks at nodes through their numbers and at names through tables, and both trees answer
alike.  So each of its steps does the same to the annotations of both, under other numbers
(`Analysis.Renamed`), and the annotations in the end are the same (`Tree.Renamed.exists_analyze`).
-/

namespace StageScript

/-! ### Annotations -/

namespace Annotations

def Renamed (f : Equiv.Perm NodeId) (a b : Annotations) : Prop := ∀ id, b.get? (f id) = a.get? id

namespace Renamed

variable {f : Equiv.Perm NodeId} {a b : Annotations}

theorem modify (h : a.Renamed f b) (id : NodeId) (g : Entry → Entry) :
    (a.modify id g).Renamed f (b.modify (f id) g) := by
  intro n
  rw [get?_modify, get?_modify, h n]
  by_cases hn : id = n
  · rw [if_pos hn, if_pos (congrArg f hn)]
  · rw [if_neg hn, if_neg fun he => hn (f.injective he)]

theorem visit (h : a.Renamed f b) (id : NodeId) : (a.visit id).Renamed f (b.visit (f id)) :=
  h.modify id _

theorem note (h : a.Renamed f b) (id : NodeId) : b.note (f id) = a.note id := by
  rw [Annotations.note, Annotations.note, note?, note?, h id]

theorem state? (h : a.Renamed f b) (id : NodeId) : b.state? (f id) = a.state? id := by
  rw [Annotations.state?, Annotations.state?, h id]

theorem state (h : a.Renamed f b) {id : NodeId} {s : DefState} (hs : a.state id = .ok s) :
    b.state (f id) = .ok s := by
  rw [Annotations.state, h.state? id]
  rw [Annotations.state] at hs
  cases ha : a.state? id with
  | none =>
    rw [ha] at hs
    cases hs
  | some s' =>
    rw [ha] at hs
    exact hs

end Renamed

end Annotations

/-! ### Steps -/

namespace Analysis

variable {α β γ δ : Type} {f : Equiv.Perm NodeId}

/-- If the first step succeeds, so does the second, from the same annotations under other numbers
to the same annotations under other numbers, and the replies are related. -/
def Renamed (f : Equiv.Perm NodeId) (R : α → β → Prop) (x : Analysis α) (y : Analysis β) : Prop :=
  ∀ a b r a', a.Renamed f b → x a = .ok (r, a') →
    ∃ s b', y b = .ok (s, b') ∧ R r s ∧ a'.Renamed f b'

def WalkersRenamed (f : Equiv.Perm NodeId) (walk walk' : Walker) : Prop :=
  ∀ chain chain' id, Chain.Renamed f chain chain' →
    Renamed f Eq (walk chain id) (walk' chain' (f id))

namespace Renamed

variable {R : α → β → Prop} {T : γ → δ → Prop} {x : Analysis α} {y : Analysis β}
  {next : α → Analysis γ} {next' : β → Analysis δ}

theorem bind (h : Renamed f R x y) (hn : ∀ r s, R r s → Renamed f T (next r) (next' s)) :
    Renamed f T (x >>= next) (y >>= next') := by
  intro a b r a' hab hRun
  obtain ⟨⟨r₁, a₁⟩, hx, hNext⟩ := exists_of_bind_eq_ok hRun
  obtain ⟨s₁, b₁, hy, hR, hab₁⟩ := h a b r₁ a₁ hab hx
  obtain ⟨s, b', hNext', hT, hab'⟩ := hn r₁ s₁ hR a₁ b₁ r a' hab₁ hNext
  refine ⟨s, b', ?_, hT, hab'⟩
  change (y b >>= fun p => next' p.1 p.2) = _
  rw [hy]
  exact hNext'

/-- Steps in turn that reply the same. -/
theorem andThen {next : α → Analysis γ} {next' : α → Analysis δ} {y : Analysis α}
    (h : Renamed f Eq x y) (hn : ∀ r, Renamed f T (next r) (next' r)) :
    Renamed f T (x >>= next) (y >>= next') :=
  h.bind fun r _ hrs => hrs ▸ hn r

theorem pure {r : α} {q : β} (h : R r q) : Renamed f R (Pure.pure r) (Pure.pure q) := by
  intro a b _ _ hab hRun
  cases hRun
  exact ⟨_, b, rfl, h, hab⟩

theorem look {g : Annotations → α} {g' : Annotations → β}
    (h : ∀ a b, a.Renamed f b → R (g a) (g' b)) :
    Renamed f R (Analysis.look g) (Analysis.look g') := by
  intro a b r a' hab hRun
  cases hRun
  exact ⟨g' b, b, rfl, h a b hab, hab⟩

theorem lift {found : Except Diagnostic α} {found' : Except Diagnostic β}
    (h : ∀ r, found = .ok r → ∃ s, found' = .ok s ∧ R r s) :
    Renamed f R (liftM found : Analysis α) (liftM found' : Analysis β) := by
  intro a b r a' hab hRun
  obtain ⟨r', hFound, hEnd⟩ := exists_of_bind_eq_ok hRun
  cases hEnd
  obtain ⟨s, hFound', hR⟩ := h r hFound
  refine ⟨s, b, ?_, hR, hab⟩
  rw [hFound']
  rfl

theorem update {g g' : Annotations → Except Diagnostic Annotations}
    (h : ∀ a b a', a.Renamed f b → g a = .ok a' → ∃ b', g' b = .ok b' ∧ a'.Renamed f b') :
    Renamed f Eq (Analysis.update g) (Analysis.update g') := by
  intro a b r a' hab hRun
  have hg : g a = .ok a' := by
    rw [Analysis.update] at hRun
    cases hg : g a with
    | error d =>
      rw [hg] at hRun
      cases hRun
    | ok c =>
      rw [hg] at hRun
      cases hRun
      rfl
  obtain ⟨b', hg', hab'⟩ := h a b a' hab hg
  exact ⟨(), b', update_of_ok hg', rfl, hab'⟩

theorem ite {c c' : Bool} {x x' : Analysis α} {y y' : Analysis β} (hc : c' = c)
    (h : Renamed f R x y) (h' : Renamed f R x' y') :
    Renamed f R (if c = true then x else x') (if c' = true then y else y') := by
  subst hc
  split
  · exact h
  · exact h'

end Renamed

/-! ### Steps that change one entry -/

theorem renamed_visit (id : NodeId) : Renamed f Eq (visit id) (visit (f id)) := by
  refine .update fun a b a' hab hVisit => ?_
  cases hVisit
  exact ⟨_, rfl, hab.visit id⟩

theorem renamed_updateNote (id : NodeId) (g : Note → Note) :
    Renamed f Eq (update fun a => a.updateNote id g) (update fun a => a.updateNote (f id) g) := by
  refine .update fun a b a' hab hNote => ?_
  rw [Annotations.updateNote] at hNote
  cases he : a.get? id with
  | none =>
    rw [he] at hNote
    cases hNote
  | some e =>
    rw [he] at hNote
    cases hNote
    refine ⟨_, ?_, hab.modify id _⟩
    rw [Annotations.updateNote, hab id, he]

theorem renamed_annotate (id : NodeId) (note : Note) :
    Renamed f Eq (annotate id note) (annotate (f id) note) :=
  renamed_updateNote id _

theorem renamed_setEffectFree (id : NodeId) (effectFree : Bool) :
    Renamed f Eq (setEffectFree id effectFree) (setEffectFree (f id) effectFree) :=
  renamed_updateNote id _

theorem renamed_updateState (id : NodeId) (g : DefState → DefState) :
    Renamed f Eq (update fun a => a.updateState id g) (update fun a => a.updateState (f id) g) := by
  refine .update fun a b a' hab hState => ?_
  obtain ⟨s, hs, hEnd⟩ := exists_of_bind_eq_ok hState
  cases hEnd
  refine ⟨_, ?_, hab.modify id _⟩
  rw [Annotations.updateState, hab.state hs]
  rfl

theorem renamed_note (id : NodeId) : Renamed f Eq (note id) (note (f id)) :=
  .look fun _ _ hab => (hab.note id).symm

/-! ### Names -/

theorem renamed_reach (id : NodeId) : Renamed f Eq (reach id) (reach (f id)) := by
  refine .bind (R := fun found found' => ∀ s, found = .ok s → found' = .ok s)
    (.look fun a b hab s hs => hab.state hs) fun found found' hFound => ?_
  refine .bind (R := Eq) (.lift fun s hs => ⟨s, hFound s hs, rfl⟩) ?_
  rintro s _ rfl
  exact (renamed_updateState id _).andThen fun _ => .pure rfl

theorem renamed_forM {ι : Type} {step step' : ι → Analysis Unit}
    (h : ∀ i, Renamed f Eq (step i) (step' i)) (is : List ι) :
    Renamed f Eq (is.forM step) (is.forM step') := by
  induction is with
  | nil => exact .pure rfl
  | cons i is ih => exact (h i).andThen fun _ => ih

section Walks

variable {walk walk' : Walker} (hWalk : WalkersRenamed f walk walk') {chain chain' : Chain}
  (hChain : Chain.Renamed f chain chain')

include hWalk hChain

theorem renamed_resolve (name : String) :
    Renamed f (fun found found' => found' = found.map f) (resolve walk chain name)
      (resolve walk' chain' name) := by
  rw [resolve, resolve]
  have hRel := hChain.declaring? name
  generalize chain.declaring? name = o at hRel ⊢
  generalize chain'.declaring? name = o' at hRel ⊢
  cases hRel with
  | none => exact .pure rfl
  | @some p q hpq =>
    obtain ⟨declared, id⟩ := p
    obtain ⟨declared', id'⟩ := q
    obtain ⟨hDeclared, rfl⟩ := hpq
    refine (renamed_reach id).andThen fun first => ?_
    exact .ite rfl ((hWalk _ _ id hDeclared).andThen fun _ => .pure rfl) (.pure rfl)

theorem renamed_walkAll (ids : List NodeId) :
    Renamed f Eq (walkAll walk chain ids) (walkAll walk' chain' (ids.map f)) := by
  induction ids with
  | nil => exact .pure rfl
  | cons id ids ih =>
    exact (hWalk _ _ id hChain).andThen fun _ => (renamed_note id).andThen fun _ =>
      ih.andThen fun _ => .pure rfl

theorem renamed_definition (id : NodeId) (d : Definition) :
    Renamed f Eq (definition walk chain id d) (definition walk' chain' (f id) (d.renumber f)) := by
  cases hb : d.body? with
  | none =>
    have hb' : (d.renumber f).body? = none := by rw [Definition.body?_renumber, hb]; rfl
    rw [definition_of_bodyless hb, definition_of_bodyless hb', Definition.isAssignable_renumber]
    exact .ite rfl (renamed_setEffectFree id true) (.pure rfl)
  | some body =>
    have hb' : (d.renumber f).body? = some (f body) := by rw [Definition.body?_renumber, hb]; rfl
    rw [definition_of_body? hb, definition_of_body? hb']
    exact hWalk _ _ body hChain

end Walks

/-! ### Nodes -/

section Trees

variable {t u : Tree} (h : t.Renamed f u) (hTree : t.WellFormed) {walk walk' : Walker}
  (hWalk : WalkersRenamed f walk walk') {chain chain' : Chain}
  (hChain : Chain.Renamed f chain chain')

include h

theorem renamed_node (id : NodeId) :
    Renamed f (Node.Renamed f) (liftM (t.node id) : Analysis Node)
      (liftM (u.node (f id)) : Analysis Node) := by
  refine .lift fun n hn => ?_
  obtain ⟨m, hm, hNode⟩ := h.get? (Tree.get?_of_node hn)
  exact ⟨m, Tree.node_of_get? hm, hNode⟩

theorem renamed_definitionAt (id : NodeId) :
    Renamed f (fun d d' => d' = d.renumber f) (liftM (t.definition id) : Analysis Definition)
      (liftM (u.definition (f id)) : Analysis Definition) := by
  refine .lift fun d hd => ⟨d.renumber f, ?_, rfl⟩
  exact Tree.definition_of_kind? (h.kind?_definition (Tree.kind?_of_definition hd))

theorem renamed_countUse (id : NodeId) (count : DefState → DefState) :
    Renamed f Eq (countUse t id count) (countUse u (f id) count) := by
  refine (renamed_definitionAt h id).bind ?_
  rintro d _ rfl
  exact .ite (Definition.isVariable_renumber d) (renamed_updateState id count) (.pure rfl)

theorem renamed_countAssign (found : Option NodeId) :
    Renamed f Eq (countAssign t found) (countAssign u (found.map f)) := by
  cases found with
  | none => exact .pure rfl
  | some id => exact renamed_countUse h id _

include hWalk hChain

theorem renamed_reference (id : NodeId) (name : String) (args : List NodeId) :
    Renamed f Eq (reference t walk chain id name args)
      (reference u walk' chain' (f id) name (args.map f)) := by
  refine (renamed_resolve hWalk hChain name).bind ?_
  rintro (_ | target) _ rfl
  · exact (renamed_walkAll hWalk hChain args).andThen fun _ => renamed_annotate id _
  · refine (renamed_definitionAt h target).bind ?_
    rintro d _ rfl
    refine .andThen (.look fun a b hab => by rw [hab.state? target]) fun returns => ?_
    refine (renamed_note target).andThen fun _ => ?_
    refine (renamed_walkAll hWalk hChain args).andThen fun _ => ?_
    refine (renamed_countUse h target _).andThen fun _ => ?_
    rw [Definition.isHost_renumber]
    exact renamed_annotate id _

include hTree

theorem renamed_block (options : Options) (id : NodeId) :
    Renamed f Eq (block t options walk chain id) (block u options walk' chain' (f id)) := by
  refine .bind (R := fun p q => q.1 = p.1.map f ∧ p.2.Renamed f q.2) (.lift fun p hp => ?_) ?_
  · obtain ⟨table', hk, hTable⟩ := h.kind?_block hTree (Tree.kind?_of_block hp)
    exact ⟨_, Tree.block_of_kind? hk, rfl, hTable⟩
  · rintro ⟨stmts, table⟩ ⟨_, table'⟩ ⟨rfl, hTable⟩
    have hInner : Chain.Renamed f (table :: chain) (table' :: chain') := .cons hTable hChain
    have hEmpty : chain'.isEmpty = chain.isEmpty := by cases hChain <;> rfl
    have hStmts : Renamed f Eq (walkAll walk (table :: chain) stmts >>= fun _ => Pure.pure ())
        (walkAll walk' (table' :: chain') (stmts.map f) >>= fun _ => Pure.pure ()) :=
      (renamed_walkAll hWalk hInner stmts).andThen fun _ => .pure rfl
    refine .ite hEmpty ?_ hStmts
    refine .andThen (renamed_forM (fun name => ?_) _) fun _ => hStmts
    exact (renamed_resolve hWalk hInner name).bind fun _ _ _ => .pure rfl

theorem renamed_nodeWith (options : Options) (id : NodeId) :
    Renamed f Eq (nodeWith t options walk chain id) (nodeWith u options walk' chain' (f id)) := by
  refine (renamed_node h id).bind ?_
  rintro ⟨kind, span⟩ ⟨kind', span'⟩ ⟨hKind, -⟩
  refine (renamed_visit id).andThen fun _ => ?_
  dsimp only at hKind ⊢
  rcases hKind.of_renumber with ⟨stmts, table, table', rfl, rfl, -⟩ | ⟨hb, rfl⟩
  · exact renamed_block h hTree hWalk hChain options id
  have hAll := renamed_walkAll hWalk hChain
  have hOne := fun x => hWalk _ _ x hChain
  have hName := renamed_resolve hWalk hChain
  have hParts : Renamed f Eq (walkAll walk chain kind.children >>= fun _ => Pure.pure ())
      (walkAll walk' chain' (kind.renumber f).children >>= fun _ => Pure.pure ()) := by
    rw [NodeKind.children_renumber]
    exact (hAll kind.children).andThen fun _ => .pure rfl
  cases kind with
  | num | char | str => exact renamed_annotate id _
  | array elems =>
    refine (hAll elems).andThen fun free => ?_
    refine .andThen (.look fun a b hab => ?_) fun notes => renamed_annotate id _
    rw [List.map_map]
    exact List.map_congr_left fun x _ => (hab.note x).symm
  | unary op x =>
    exact (hOne x).andThen fun _ => (renamed_note x).andThen fun _ => renamed_annotate id _
  | binary op l r | element l r | slice l r =>
    exact (hOne l).andThen fun _ => (hOne r).andThen fun _ => (renamed_note l).andThen fun _ =>
      (renamed_note r).andThen fun _ => renamed_annotate id _
  | range l r =>
    exact (hOne l).andThen fun _ => (hOne r).andThen fun _ => (renamed_note l).andThen fun _ =>
      (renamed_note r).andThen fun _ => renamed_setEffectFree id _
  | ref name => exact renamed_reference h hWalk hChain id name []
  | call name args => exact renamed_reference h hWalk hChain id name args
  | target name indices =>
    refine (hName name).bind ?_
    rintro found _ rfl
    exact (hAll indices).andThen fun _ => renamed_countAssign h found
  | assign op l r =>
    exact (hOne l).andThen fun _ => (hOne r).andThen fun _ => renamed_setEffectFree id _
  | succ l | pred l => exact (hOne l).andThen fun _ => renamed_setEffectFree id _
  | varInit name r =>
    refine (hName name).bind ?_
    rintro found _ rfl
    exact (hOne r).andThen fun _ => (renamed_setEffectFree id _).andThen fun _ =>
      renamed_countAssign h found
  | callStmt name args =>
    exact (hName name).bind fun _ _ _ => (hAll args).andThen fun _ => .pure rfl
  | block stmts table => exact absurd rfl (hb _ _)
  | definition d => exact renamed_definition hWalk hChain id d
  | _ => exact hParts

omit hWalk hChain in
theorem walkersRenamed_walkAt (options : Options) (depth : Nat) :
    WalkersRenamed f (walkAt t options depth) (walkAt u options depth) := by
  induction depth with
  | zero =>
    intro chain chain' id hChain a b r a' hab hRun
    cases hRun
  | succ depth ih =>
    exact fun chain chain' id hChain => renamed_nodeWith h hTree ih hChain options id

end Trees

end Analysis

/-! ### The whole analysis -/

theorem Annotations.renamed_ofTree {f : Equiv.Perm NodeId} {t u : Tree} (h : t.Renamed f u) :
    (ofTree t).Renamed f (ofTree u) := by
  intro id
  rw [get?_ofTree, get?_ofTree]
  have hNode := h.nodes id
  generalize t.get? id = n at hNode ⊢
  generalize u.get? (f id) = m at hNode ⊢
  cases hNode with
  | none => rfl
  | @some n m hNode =>
    obtain ⟨kind, span⟩ := n
    obtain ⟨kind', span'⟩ := m
    rw [Option.map_some, Option.map_some]
    rcases hNode.kind.of_renumber with ⟨stmts, table, table', hk, hl, -⟩ | ⟨-, hl⟩
    · cases hk
      cases hl
      rfl
    · cases hl
      cases kind with
      | definition d => cases d <;> rfl
      | _ => rfl

/-- The analyses of the trees agree on every node. -/
theorem Tree.Renamed.exists_analyze {f : Equiv.Perm NodeId} {t u : Tree} (h : t.Renamed f u)
    (hTree : t.WellFormed) {options : Options} {a : Annotations} (ha : analyze t options = .ok a) :
    ∃ b, analyze u options = .ok b ∧ a.Renamed f b := by
  have hDepth : Analysis.maxDepth u = Analysis.maxDepth t := by
    rw [Analysis.maxDepth, Analysis.maxDepth, h.length_definitions, h.size]
  have hWalk := Analysis.walkersRenamed_walkAt h hTree options (Analysis.maxDepth t)
  have hStart := (Annotations.renamed_ofTree h).visit t.root
  obtain ⟨⟨r, a'⟩, hRun, hEnd⟩ := exists_of_bind_eq_ok ha
  cases hEnd
  obtain ⟨s, b, hRun', -, hab⟩ :=
    Analysis.renamed_block h hTree hWalk (.nil : Chain.Renamed f [] []) options t.root _ _ _ _
      hStart hRun
  refine ⟨b, ?_, hab⟩
  rw [← h.root, ← hDepth] at hRun'
  rw [analyze]
  dsimp only
  rw [hRun']
  rfl

end StageScript

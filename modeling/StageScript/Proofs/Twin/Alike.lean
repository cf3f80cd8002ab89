import Mathlib
import StageScript.Proofs.Tree.Shape

/-!
# Nodes that are alike

Two trees can hold the same script under different numbers.  `NodeKind.Alike` says that two nodes
differ only in the numbers they name, which are related pair by pair, and in the order of their
tables.  If the comparison is `exact`, the tables are in the same order too.
-/

namespace StageScript

variable {exact : Prop} {ρ σ : NodeId → NodeId → Prop}

def EntriesAlike (ρ : NodeId → NodeId → Prop) (es fs : List (String × NodeId)) : Prop :=
  List.Forall₂ (fun e f => f.1 = e.1 ∧ ρ e.2 f.2) es fs

/-- The tables have the same names, for related nodes. -/
def NameTable.Alike (exact : Prop) (ρ : NodeId → NodeId → Prop) (t u : NameTable) : Prop :=
  ∃ es, EntriesAlike ρ t.entries es ∧ es.Perm u.entries ∧ (exact → es = u.entries)

inductive Definition.Alike (ρ : NodeId → NodeId → Prop) : Definition → Definition → Prop
  | same {d : Definition} (h : d.body? = none) : Alike ρ d d
  | sub {name : String} {body body' : NodeId} (h : ρ body body') :
      Alike ρ (.sub name body) (.sub name body')
  | entryRoutine {name : String} {body body' : NodeId} (h : ρ body body') :
      Alike ρ (.entryRoutine name body) (.entryRoutine name body')
  | func {name : String} {params params' : List NodeId} {body body' : NodeId}
      (hp : params.Forall₂ ρ params') (h : ρ body body') :
      Alike ρ (.func name params body) (.func name params' body')
  | task {name : String} {params params' : List NodeId} {body body' : NodeId}
      (hp : params.Forall₂ ρ params') (h : ρ body body') :
      Alike ρ (.task name params body) (.task name params' body')

/-- The kinds differ in the numbers they name and in the order of their tables at most. -/
inductive NodeKind.Alike (exact : Prop) (ρ : NodeId → NodeId → Prop) : NodeKind → NodeKind → Prop
  | same {k : NodeKind} (hc : k.children = []) (he : k.entries = []) (hd : k.isDefinition = false) :
      Alike exact ρ k k
  | array {elems elems' : List NodeId} (h : elems.Forall₂ ρ elems') :
      Alike exact ρ (.array elems) (.array elems')
  | unary {op : UnaryOp} {x x' : NodeId} (h : ρ x x') : Alike exact ρ (.unary op x) (.unary op x')
  | binary {op : BinaryOp} {l r l' r' : NodeId} (hl : ρ l l') (hr : ρ r r') :
      Alike exact ρ (.binary op l r) (.binary op l' r')
  | call {name : String} {args args' : List NodeId} (h : args.Forall₂ ρ args') :
      Alike exact ρ (.call name args) (.call name args')
  | element {l r l' r' : NodeId} (hl : ρ l l') (hr : ρ r r') :
      Alike exact ρ (.element l r) (.element l' r')
  | range {l r l' r' : NodeId} (hl : ρ l l') (hr : ρ r r') :
      Alike exact ρ (.range l r) (.range l' r')
  | slice {l r l' r' : NodeId} (hl : ρ l l') (hr : ρ r r') :
      Alike exact ρ (.slice l r) (.slice l' r')
  | target {name : String} {is is' : List NodeId} (h : is.Forall₂ ρ is') :
      Alike exact ρ (.target name is) (.target name is')
  | assign {op : AssignOp} {l r l' r' : NodeId} (hl : ρ l l') (hr : ρ r r') :
      Alike exact ρ (.assign op l r) (.assign op l' r')
  | callStmt {name : String} {args args' : List NodeId} (h : args.Forall₂ ρ args') :
      Alike exact ρ (.callStmt name args) (.callStmt name args')
  | returnValue {x x' : NodeId} (h : ρ x x') : Alike exact ρ (.returnValue x) (.returnValue x')
  | succ {x x' : NodeId} (h : ρ x x') : Alike exact ρ (.succ x) (.succ x')
  | pred {x x' : NodeId} (h : ρ x x') : Alike exact ρ (.pred x) (.pred x')
  | varInit {name : String} {x x' : NodeId} (h : ρ x x') :
      Alike exact ρ (.varInit name x) (.varInit name x')
  | block {ids ids' : List NodeId} {t t' : NameTable} (h : ids.Forall₂ ρ ids')
      (ht : t.Alike exact ρ t') : Alike exact ρ (.block ids t) (.block ids' t')
  | localBlock {x x' : NodeId} (h : ρ x x') : Alike exact ρ (.localBlock x) (.localBlock x')
  | loop {x x' : NodeId} (h : ρ x x') : Alike exact ρ (.loop x) (.loop x')
  | times {l r l' r' : NodeId} (hl : ρ l l') (hr : ρ r r') :
      Alike exact ρ (.times l r) (.times l' r')
  | whileLoop {l r l' r' : NodeId} (hl : ρ l l') (hr : ρ r r') :
      Alike exact ρ (.whileLoop l r) (.whileLoop l' r')
  | ascent {l r l' r' : NodeId} (hl : ρ l l') (hr : ρ r r') :
      Alike exact ρ (.ascent l r) (.ascent l' r')
  | descent {l r l' r' : NodeId} (hl : ρ l l') (hr : ρ r r') :
      Alike exact ρ (.descent l r) (.descent l' r')
  | elseIf {l r l' r' : NodeId} (hl : ρ l l') (hr : ρ r r') :
      Alike exact ρ (.elseIf l r) (.elseIf l' r')
  | ifElse {l r l' r' : NodeId} {es es' : List NodeId} {o o' : Option NodeId} (hl : ρ l l')
      (hr : ρ r r') (hes : es.Forall₂ ρ es') (ho : o.toList.Forall₂ ρ o'.toList) :
      Alike exact ρ (.ifElse l r es o) (.ifElse l' r' es' o')
  | caseOf {vs vs' : List NodeId} {x x' : NodeId} (hvs : vs.Forall₂ ρ vs') (h : ρ x x') :
      Alike exact ρ (.caseOf vs x) (.caseOf vs' x')
  | alternative {l l' : NodeId} {es es' : List NodeId} {o o' : Option NodeId} (hl : ρ l l')
      (hes : es.Forall₂ ρ es') (ho : o.toList.Forall₂ ρ o'.toList) :
      Alike exact ρ (.alternative l es o) (.alternative l' es' o')
  | definition {d d' : Definition} (h : d.Alike ρ d') :
      Alike exact ρ (.definition d) (.definition d')

/-- Related nodes are alike and begin at the same place; if the comparison is exact, they end there
too. -/
def Tree.Linked (exact : Prop) (ρ : NodeId → NodeId → Prop) (t u : Tree) : Prop :=
  ∀ x y, ρ x y → ∃ n m, t.get? x = some n ∧ u.get? y = some m ∧
    n.kind.Alike exact ρ m.kind ∧ m.span.start = n.span.start ∧ (exact → m.span = n.span)

/-! ### More nodes that are related -/

section Mono

variable (h : ∀ x y, ρ x y → σ x y)

include h

theorem EntriesAlike.mono {es fs : List (String × NodeId)} (ha : EntriesAlike ρ es fs) :
    EntriesAlike σ es fs :=
  List.Forall₂.imp (fun _ _ he => ⟨he.1, h _ _ he.2⟩) ha

theorem NameTable.Alike.mono {t u : NameTable} (ha : t.Alike exact ρ u) : t.Alike exact σ u := by
  obtain ⟨es, hes, hPerm, hExact⟩ := ha
  exact ⟨es, hes.mono h, hPerm, hExact⟩

theorem Definition.Alike.mono {d e : Definition} (ha : d.Alike ρ e) : d.Alike σ e := by
  cases ha with
  | same hd => exact .same hd
  | sub hb => exact .sub (h _ _ hb)
  | entryRoutine hb => exact .entryRoutine (h _ _ hb)
  | func hp hb => exact .func (hp.imp h) (h _ _ hb)
  | task hp hb => exact .task (hp.imp h) (h _ _ hb)

theorem NodeKind.Alike.mono {k l : NodeKind} (ha : k.Alike exact ρ l) : k.Alike exact σ l := by
  cases ha with
  | same hc he hd => exact .same hc he hd
  | block ha ht => exact .block (ha.imp h) (ht.mono h)
  | definition hd => exact .definition (hd.mono h)
  | _ =>
    -- all other kinds name nodes one by one or in lists
    constructor
    all_goals first
      | apply h; assumption
      | apply List.Forall₂.imp h; assumption

end Mono

theorem Definition.Alike.name_eq {d e : Definition} (h : d.Alike ρ e) : e.name = d.name := by
  cases h <;> rfl

theorem NodeKind.Alike.of_definition {d : Definition} {l : NodeKind}
    (h : (NodeKind.definition d).Alike exact ρ l) : ∃ d', l = .definition d' ∧ d.Alike ρ d' := by
  cases h with
  | same _ _ hd => cases hd
  | definition h => exact ⟨_, rfl, h⟩

theorem EntriesAlike.names_eq {es fs : List (String × NodeId)} (h : EntriesAlike ρ es fs) :
    fs.map Prod.fst = es.map Prod.fst := by
  induction h with
  | nil => rfl
  | cons he _ ih => rw [List.map_cons, List.map_cons, he.1, ih]

/-- The nodes that the entries name, which is all that makes them alike. -/
theorem EntriesAlike.link {es fs : List (String × NodeId)} (h : EntriesAlike ρ es fs) :
    (es.map Prod.snd).Forall₂ ρ (fs.map Prod.snd) ∧ ∀ τ : NodeId → NodeId → Prop,
      (es.map Prod.snd).Forall₂ τ (fs.map Prod.snd) → EntriesAlike τ es fs := by
  induction h with
  | nil => exact ⟨.nil, fun _ _ => .nil⟩
  | cons he _ ih =>
    refine ⟨.cons he.2 ih.1, fun τ h => ?_⟩
    cases h with
    | cons h hs => exact .cons ⟨he.1, h⟩ (ih.2 τ hs)

namespace NameTable.Alike

variable {t u : NameTable} {es fs : List (String × NodeId)}

theorem nil : (⟨[]⟩ : NameTable).Alike exact ρ ⟨[]⟩ := ⟨[], .nil, .nil, fun _ => rfl⟩

theorem mem_names (h : t.Alike exact ρ u) {name : String} :
    name ∈ u.entries.map Prod.fst ↔ name ∈ t.entries.map Prod.fst := by
  obtain ⟨es, hes, hPerm, -⟩ := h
  rw [← hes.names_eq, (hPerm.map Prod.fst).mem_iff]

theorem append (h : t.Alike exact ρ u) (hes : (⟨es⟩ : NameTable).Alike exact ρ ⟨fs⟩) :
    (⟨t.entries ++ es⟩ : NameTable).Alike exact ρ ⟨u.entries ++ fs⟩ := by
  obtain ⟨es₁, hes₁, hPerm₁, hExact₁⟩ := h
  obtain ⟨es₂, hes₂, hPerm₂, hExact₂⟩ := hes
  refine ⟨es₁ ++ es₂, List.rel_append hes₁ hes₂, hPerm₁.append hPerm₂, fun he => ?_⟩
  rw [hExact₁ he, hExact₂ he]

theorem entry {name : String} {id id' : NodeId} (h : ρ id id') :
    (⟨[(name, id)]⟩ : NameTable).Alike exact ρ ⟨[(name, id')]⟩ :=
  ⟨[(name, id')], .cons ⟨rfl, h⟩ .nil, .refl _, fun _ => rfl⟩

theorem link (h : t.Alike exact ρ u) : ∃ xs ys, List.Forall₂ ρ xs ys ∧
    ∀ τ : NodeId → NodeId → Prop, xs.Forall₂ τ ys → t.Alike exact τ u := by
  obtain ⟨es, hes, hPerm, hExact⟩ := h
  obtain ⟨hNodes, hBack⟩ := hes.link
  exact ⟨_, _, hNodes, fun τ hτ => ⟨es, hBack τ hτ, hPerm, hExact⟩⟩

end NameTable.Alike

/-- What is related stays alike when the trees grow. -/
theorem Tree.Linked.grow {t u t' u' : Tree} (h : t.Linked exact ρ u) (ht : t.Extends t')
    (hu : u.Extends u') : t'.Linked exact ρ u' := by
  intro x y hxy
  obtain ⟨n, m, hn, hm, hAlike, hSpan⟩ := h x y hxy
  exact ⟨n, m, ht.get? hn, hu.get? hm, hAlike, hSpan⟩

end StageScript

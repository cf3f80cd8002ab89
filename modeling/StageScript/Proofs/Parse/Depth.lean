import StageScript.Proofs.Parse.Runs
import StageScript.Proofs.Render.RoundTrip

/-!
# How deep expressions go

A chain leads from a node to one of its operands, elements, arguments, arrays, indices, ranges
or bounds, from there to another one, and so on (`Tree.Link`).  The limit on nesting does not
bound the length of chains: an operator takes what stands before it as its left operand, and an
index takes it as its array, without a level of its own, so that a long sum is as deep as it is
long.  What the limit bounds are the turns of a chain, which are the links that do not go to a
left operand or an indexed array: there are at most two for each level.

`Tree.Bends t n id` says that no chain from `id` has more than `n` turns, in `t` or in a tree
that `t` grows to.  With `levels` levels left, expressions bend by `2 * levels - 2` at most.
-/

set_option synthInstance.maxSize 4000

namespace StageScript

/-- The left operand, or the array that an index or a range is taken from. -/
def NodeKind.leftPart? : NodeKind → Option NodeId
  | binary _ lhs _ => some lhs
  | element base _ => some base
  | slice base _ => some base
  | _ => none

namespace Tree

/-- `part` is an operand, element, argument, array, index, range or bound of `id`. -/
def Link (t : Tree) (id part : NodeId) : Prop := ∃ k, t.kind? id = some k ∧ part ∈ k.exprParts

/-- The number of links that do not go to a left operand or an indexed array. -/
def turns (t : Tree) : List NodeId → Nat
  | [] => 0
  | [_] => 0
  | id :: part :: rest =>
    (if (t.kind? id).bind NodeKind.leftPart? = some part then 0 else 1) + turns t (part :: rest)

/-- No chain from `id` has more than `n` turns, whatever is added to the tree. -/
def Bends (t : Tree) (n : ℤ) (id : NodeId) : Prop :=
  ∀ u, t.Extends u → ∀ rest, (id :: rest).IsChain u.Link → u.turns (id :: rest) ≤ n

variable {t u : Tree} {n m : ℤ} {id : NodeId} {k : NodeKind}

theorem Bends.grow (h : t.Bends n id) (g : t.Extends u) : u.Bends n id :=
  fun v hv => h v (g.trans hv)

theorem Bends.nonneg (h : t.Bends n id) : 0 ≤ n := h t (.refl t) [] (.singleton id)

theorem Bends.mono (h : t.Bends n id) (hm : n ≤ m) : t.Bends m id :=
  fun v hv rest hr => (h v hv rest hr).trans hm

/-- A node bends as much as its left part, and once more than its other parts. -/
theorem bends_of_kind? (hk : t.kind? id = some k) (hn : 0 ≤ n)
    (hParts : ∀ c ∈ k.exprParts, t.Bends (n - 1) c ∨ k.leftPart? = some c ∧ t.Bends n c) :
    t.Bends n id := by
  intro u hu rest hChain
  cases rest with
  | nil => exact hn
  | cons c rest =>
    obtain ⟨⟨k', hk', hc⟩, hRest⟩ := List.isChain_cons_cons.mp hChain
    have hKind := hu.kind? hk
    cases hKind.symm.trans hk'
    rw [turns, hKind, Option.bind_some]
    rcases hParts c hc with hBends | ⟨hLeft, hBends⟩
    · have hBound := hBends u hu rest hRest
      split <;> omega
    · have hBound := hBends u hu rest hRest
      rw [if_pos hLeft]
      omega

end Tree

namespace Parse

/-! ### Trees that grow by nodes that bend little -/

/-- The tree grows, and no new node bends by more than twice the limit. -/
def Grown (p q : Parser) : Prop :=
  p.tree.Extends q.tree ∧
    ∀ id, p.tree.size ≤ id → id < q.tree.size → q.tree.Bends (2 * maxNesting) id

def SameTree (p q : Parser) : Prop := q.tree = p.tree

theorem Grown.refl (p : Parser) : Grown p p :=
  ⟨.refl _, fun _ h h' => absurd h' (Nat.not_lt_of_le h)⟩

theorem Grown.trans {p q r : Parser} (h : Grown p q) (g : Grown q r) : Grown p r := by
  refine ⟨h.1.trans g.1, fun id hp hr => ?_⟩
  rcases Nat.lt_or_ge id q.tree.size with hq | hq
  · exact (h.2 id hp hq).grow g.1
  · exact g.2 id hq hr

theorem Grown.of_tree_eq {p q : Parser} (h : q.tree = p.tree) : Grown p q := by
  have hRefl := Grown.refl p
  rwa [Grown, ← h] at hRefl ⊢

theorem Grown.push {p : Parser} {k : NodeKind} {span : Span}
    (h : (p.tree.push ⟨k, span⟩).Bends (2 * maxNesting) p.tree.size) :
    Grown p { p with tree := p.tree.push ⟨k, span⟩ } := by
  refine ⟨.push _ _, fun id hp hq => ?_⟩
  have hSize : id < p.tree.size + 1 := by simpa using hq
  rwa [Nat.le_antisymm (Nat.le_of_lt_succ hSize) hp]

instance walks_sameTree : Walks SameTree where
  refl _ := rfl
  trans h g := Eq.trans g h
  advance _ := rfl
  declare _ := rfl
  nested h := h
  block h _ := h

instance walks_grown : Walks Grown where
  refl := Grown.refl
  trans := Grown.trans
  advance _ := .of_tree_eq rfl
  declare _ := .of_tree_eq rfl
  nested h := h
  block h _ := h

instance bearsPlain_grown : BearsPlain Grown where
  bears k hk := by
    refine ⟨fun p span => .push (Tree.bends_of_kind? (Tree.kind?_push_size _ _) (by decide) ?_)⟩
    simp [hk]

/-! ### Steps -/

def Held (held : List (NodeId × ℤ)) (t : Tree) : Prop := ∀ h ∈ held, t.Bends h.2 h.1

def Bent {α : Type} (pre : Tree → Prop) (step : Parse α) (post : α → Tree → Prop) : Prop :=
  ∀ (p q : Parser) (a : α), step p = .ok a q → pre p.tree → Grown p q ∧ post a q.tree

section Rules

variable {α β : Type} {pre : Tree → Prop} {step : Parse α} {post : α → Tree → Prop}
  {held : List (NodeId × ℤ)} {n : ℤ}

theorem Held.grow {t u : Tree} (h : Held held t) (g : t.Extends u) : Held held u :=
  fun i hi => (h i hi).grow g

theorem Bent.bind {next : α → Parse β} {goal : β → Tree → Prop} (h : Bent pre step post)
    (hn : ∀ a, Bent (post a) (next a) goal) : Bent pre (step >>= next) goal := by
  intro p r b hRun hPre
  obtain ⟨a, q, hStep, hNext⟩ := bind_eq_ok hRun
  obtain ⟨hGrown, hPost⟩ := h p q a hStep hPre
  obtain ⟨hMore, hGoal⟩ := hn a q r b hNext hPost
  exact ⟨hGrown.trans hMore, hGoal⟩

theorem Bent.pure {a : α} (h : ∀ t, pre t → post a t) : Bent pre (pure a) post := by
  intro p q b hRun hPre
  cases hRun
  exact ⟨.refl _, h _ hPre⟩

theorem Bent.ite {c : Prop} [Decidable c] {other : Parse α} (h : Bent pre step post)
    (hOther : Bent pre other post) : Bent pre (if c then step else other) post := by
  split
  · exact h
  · exact hOther

theorem Bent.weaken {goal : α → Tree → Prop} (h : Bent pre step post)
    (hg : ∀ a t, post a t → goal a t) : Bent pre step goal := by
  intro p q a hRun hPre
  obtain ⟨hGrown, hPost⟩ := h p q a hRun hPre
  exact ⟨hGrown, hg a _ hPost⟩

/-- A step that leaves the tree alone. -/
theorem Bent.still [hs : Runs SameTree step] : Bent pre step fun _ => pre := by
  intro p q a hRun hPre
  have hTree : q.tree = p.tree := hs.related hRun
  exact ⟨.of_tree_eq hTree, hTree ▸ hPre⟩

/-- A step whose new nodes are known to bend little. -/
theorem Bent.grown [hs : Runs Grown step] : Bent (Held held) step fun _ => Held held := by
  intro p q a hRun hPre
  have hGrown : Grown p q := hs.related hRun
  exact ⟨hGrown, hPre.grow hGrown.1⟩

theorem Bent.runs (h : Bent (Held []) step fun _ => Held []) : Runs Grown step :=
  ⟨fun hRun => (h _ _ _ hRun (by simp [Held])).1⟩

def Fitting (k : NodeKind) (n : ℤ) (held : List (NodeId × ℤ)) : Prop :=
  ∀ c ∈ k.exprParts, (∃ b < n, (c, b) ∈ held) ∨ k.leftPart? = some c ∧ (c, n) ∈ held

theorem fitting_left {k : NodeKind} {left right : NodeId} {b : ℤ} (hk : k.exprParts = [left, right])
    (hl : k.leftPart? = some left) (hb : b < n) (hLeft : (left, n) ∈ held)
    (hRight : (right, b) ∈ held) : Fitting k n held := by
  intro c hc
  rw [hk] at hc
  rcases List.mem_pair.mp hc with rfl | rfl
  · exact .inr ⟨hl, hLeft⟩
  · exact .inl ⟨b, hb, hRight⟩

theorem Bent.push {k : NodeKind} {more : List (NodeId × ℤ)} (span : Span) (hn : 0 ≤ n)
    (hMax : n ≤ 2 * maxNesting) (hParts : Fitting k n more) (hSub : held ⊆ more) :
    Bent (Held more) (push k span) fun id => Held ((id, n) :: held) := by
  intro p q id hRun hPre
  cases hRun
  have hHeld : Held more (p.tree.push ⟨k, span⟩) := hPre.grow (.push _ _)
  have hNew : (p.tree.push ⟨k, span⟩).Bends n p.tree.size := by
    refine Tree.bends_of_kind? (Tree.kind?_push_size _ _) hn fun c hc => ?_
    rcases hParts c hc with ⟨b, hb, hMem⟩ | ⟨hLeft, hMem⟩
    · exact .inl ((hHeld _ hMem).mono (Int.le_sub_one_of_lt hb))
    · exact .inr ⟨hLeft, hHeld _ hMem⟩
  exact ⟨.push (hNew.mono hMax), List.forall_mem_cons.mpr ⟨hNew, fun i hi => hHeld i (hSub hi)⟩⟩

theorem Bent.pushFrom {k : NodeKind} {more : List (NodeId × ℤ)} (start : Position) (hn : 0 ≤ n)
    (hMax : n ≤ 2 * maxNesting) (hParts : Fitting k n more) (hSub : held ⊆ more) :
    Bent (Held more) (pushFrom start k) fun id => Held ((id, n) :: held) :=
  Bent.still.bind fun span => .push span hn hMax hParts hSub

theorem Held.subset {more : List (NodeId × ℤ)} {t : Tree} (h : Held more t) (hs : held ⊆ more) :
    Held held t :=
  fun i hi => h i (hs hi)

/-- A node that bends little may be taken to bend more. -/
theorem Held.raise {t : Tree} {id : NodeId} {m : ℤ} (h : Held ((id, m) :: held) t) (hm : m ≤ n) :
    Held ((id, n) :: held) t := by
  obtain ⟨hFirst, hRest⟩ := List.forall_mem_cons.mp h
  exact List.forall_mem_cons.mpr ⟨hFirst.mono hm, hRest⟩

end Rules

/-! ### Expressions -/

def ExprBent (m : ℤ) (expr : ExprParser) : Prop :=
  ∀ power held, Bent (Held held) (expr power) fun id => Held ((id, m) :: held)

section Expressions

variable {m : ℤ} {expr : ExprParser} {held : List (NodeId × ℤ)}

theorem ExprBent.runs (h : ExprBent m expr) (power : Power) : Runs Grown (expr power) :=
  ((h power []).weaken fun _ _ _ => by simp [Held]).runs

theorem bent_commaItems (h : ExprBent m expr) (close : TokenKind) (n : Nat) :
    ∀ held, Bent (Held held) (commaItems close (expr .lowest) n)
      fun ids => Held (ids.map (·, m) ++ held) := by
  induction n with
  | zero => exact fun held => .pure fun t ht => ht
  | succ n ih =>
    intro held
    refine Bent.still.bind fun b => .ite (.pure fun t ht => ht) ?_
    refine (h _ held).bind fun id => Bent.still.bind fun b => .ite ?_ (.pure fun t ht => ht)
    exact (ih _).bind fun ids => .pure fun t ht => ht.subset List.perm_middle.symm.subset

theorem bent_commaList (h : ExprBent m expr) (close : Symbol) :
    Bent (Held held) (commaList close (expr .lowest)) fun ids => Held (ids.map (·, m) ++ held) := by
  refine Bent.still.bind fun n => (bent_commaItems h _ n held).bind fun ids => ?_
  exact Bent.still.bind fun _ => .pure fun t ht => ht

theorem bent_callArgs (h : ExprBent m expr) :
    Bent (Held held) (callArgs expr) fun ids => Held (ids.map (·, m) ++ held) :=
  Bent.still.bind fun _ => bent_commaList h _

theorem exprParts_literalKind {token : Token} {k : NodeKind} (h : literalKind token = .ok k) :
    k.exprParts = [] := by
  rw [literalKind] at h
  split at h <;> try split at h
  all_goals cases h <;> rfl

/-- An expression whose parts bend by `m` bends by `m + 2`: there may be a range between it and
its parts. -/
theorem bent_head (h : ExprBent m expr) (hm : -2 ≤ m) (hMax : m + 2 ≤ 2 * maxNesting)
    (kind : Head) :
    Bent (Held held) (head expr kind) fun id => Held ((id, m + 2) :: held) := by
  have hZero : 0 ≤ m + 2 := by omega
  have hLess : m < m + 2 := by omega
  cases kind with
  | literal =>
    refine Bent.still.bind fun token => ?_
    cases hk : literalKind token with
    | error c => exact fun _ _ _ hRun => by cases hRun
    | ok k => exact .push _ hZero hMax (by simp [Fitting, exprParts_literalKind hk]) (by simp)
  | name =>
    refine Bent.still.bind fun token => Bent.still.bind fun b => .ite ?_ ?_
    · refine (bent_callArgs h).bind fun args => .pushFrom _ hZero hMax ?_ (by simp)
      exact fun c hc => .inl ⟨m, hLess, by simp [hc]⟩
    · exact .push _ hZero hMax (by simp [Fitting]) (by simp)
  | array =>
    refine Bent.still.bind fun token => (bent_commaList h _).bind fun elems => ?_
    exact .pushFrom _ hZero hMax (fun c hc => .inl ⟨m, hLess, by simp [hc]⟩) (by simp)
  | group =>
    refine Bent.still.bind fun _ => (h _ _).bind fun id => Bent.still.bind fun _ => ?_
    exact .pure fun t ht => ht.raise (Int.le_of_lt hLess)
  | absolute =>
    refine Bent.still.bind fun token => (h _ _).bind fun id => Bent.still.bind fun _ => ?_
    exact .pushFrom _ hZero hMax (fun c hc => .inl ⟨m, hLess, by simp_all⟩) (by simp)
  | sign =>
    refine Bent.still.bind fun token => (h _ _).bind fun id => ?_
    exact .pushFrom _ hZero hMax (fun c hc => .inl ⟨m, hLess, by simp_all⟩) (by simp)

theorem bent_range {span : Span} (start stop : NodeId) (hMax : m + 1 ≤ 2 * maxNesting) :
    Bent (Held ((stop, m) :: (start, m) :: held)) (push (.range start stop) span)
      fun id => Held ((id, m + 1) :: held) := by
  intro p q id hRun hHeld
  -- without a level left there are no bounds
  have hNonneg : 0 ≤ m := (hHeld (start, m) (by simp)).nonneg
  have hFit : Fitting (.range start stop) (m + 1) ((stop, m) :: (start, m) :: held) := by
    intro c hc
    refine .inl ⟨m, by omega, ?_⟩
    rcases List.mem_pair.mp hc with rfl | rfl <;> simp
  exact Bent.push span (by omega) hMax hFit (by simp) p q id hRun hHeld

/-- The left operand may bend as much as the whole. -/
theorem bent_tail (h : ExprBent m expr) (hm : -2 ≤ m) (hMax : m + 2 ≤ 2 * maxNesting)
    (left : NodeId) (power : Power) (kind : Tail) :
    Bent (Held ((left, m + 2) :: held)) (tail expr left power kind)
      fun id => Held ((id, m + 2) :: held) := by
  have hZero : 0 ≤ m + 2 := by omega
  have hBinary : ∀ (op : BinaryOp) (right : NodeId),
      Bent (Held ((right, m) :: (left, m + 2) :: held)) (pushBinary op left right)
        fun id => Held ((id, m + 2) :: held) := by
    intro op right
    refine Bent.still.bind fun span => .push span hZero hMax ?_ (by simp)
    exact fitting_left rfl rfl (by omega) (by simp) (List.mem_cons_self ..)
  cases kind with
  | binary =>
    refine Bent.still.bind fun token => ?_
    cases BinaryOp.ofKind? token.kind with
    | none => exact fun _ _ _ hRun => by cases hRun
    | some op => exact (h _ _).bind fun right => hBinary op right
  | exponent => exact Bent.still.bind fun _ => (h _ _).bind fun right => hBinary _ right
  | index =>
    refine Bent.still.bind fun _ => (h _ _).bind fun start => Bent.still.bind fun b => .ite ?_ ?_
    · refine (h _ _).bind fun stop => Bent.still.bind fun span => ?_
      refine (bent_range start stop (by omega)).bind fun bounds => Bent.still.bind fun _ => ?_
      refine Bent.still.bind fun span => .pushFrom _ hZero hMax ?_ (by simp)
      exact fitting_left rfl rfl (show m + 1 < m + 2 by omega) (by simp) (List.mem_cons_self ..)
    · refine Bent.still.bind fun _ => Bent.still.bind fun span => ?_
      refine .pushFrom _ hZero hMax ?_ (by simp)
      exact fitting_left rfl rfl (show m < m + 2 by omega) (by simp) (List.mem_cons_self ..)

theorem bent_extend (h : ExprBent m expr) (hm : -2 ≤ m) (hMax : m + 2 ≤ 2 * maxNesting)
    (power : Power) (n : Nat) (left : NodeId) :
    Bent (Held ((left, m + 2) :: held)) (extend expr power n left)
      fun id => Held ((id, m + 2) :: held) := by
  induction n generalizing left with
  | zero => exact .pure fun t ht => ht
  | succ n ih =>
    rw [extend_succ]
    refine Bent.still.bind fun found => ?_
    cases found with
    | none => exact .pure fun t ht => ht
    | some tighter =>
      refine .ite (.pure fun t ht => ht) ?_
      exact (bent_tail h hm hMax left _ _).bind fun id => ih id

theorem bent_exprWith (h : ExprBent m expr) (hm : -2 ≤ m) (hMax : m + 2 ≤ 2 * maxNesting) :
    ExprBent (m + 2) (exprWith expr) := by
  intro power held
  refine Bent.still.bind fun found => ?_
  cases found with
  | none => exact fun _ _ _ hRun => by cases hRun
  | some kind =>
    refine (bent_head h hm hMax kind).bind fun left => Bent.still.bind fun n => ?_
    exact bent_extend h hm hMax power n left

/-- Each level of nesting lets expressions bend twice more. -/
theorem bent_exprAt {levels : Nat} (h : levels ≤ maxNesting) :
    ExprBent (2 * levels - 2) (exprAt levels) := by
  induction levels with
  | zero => exact fun _ _ _ _ _ hRun => by cases hRun
  | succ levels ih =>
    intro power held p q id hRun hHeld
    obtain ⟨-, r, hStep, rfl⟩ := nested_eq_ok hRun
    have hInner := ih (by omega)
    have hSum : (2 * levels - 2 + 2 : ℤ) = 2 * (levels + 1 : Nat) - 2 := by omega
    have hExpr := bent_exprWith hInner (by omega) (by omega) power held _ r id hStep hHeld
    rwa [hSum] at hExpr

end Expressions

/-! ### Statements -/

section Statements

theorem bent_indices {m : ℤ} {expr : ExprParser} (h : ExprBent m expr) (n : Nat) :
    ∀ held, Bent (Held held) (indices expr n) fun ids => Held (ids.map (·, m) ++ held) := by
  induction n with
  | zero => exact fun held => .pure fun t ht => ht
  | succ n ih =>
    intro held
    refine Bent.still.bind fun b => .ite ?_ (.pure fun t ht => ht)
    refine (h _ held).bind fun id => Bent.still.bind fun _ => (ih _).bind fun ids => ?_
    exact .pure fun t ht => ht.subset List.perm_middle.symm.subset

variable {inner : Inner}

/-- A statement over expressions that it takes as its parts. -/
theorem bent_parts {k : NodeKind} {ids : List NodeId} (start : Position) (hk : k.exprParts = ids) :
    Bent (Held (ids.map (·, 2 * (maxNesting : ℤ) - 2) ++ [])) (pushFrom start k)
      fun _ => Held [] := by
  refine (Bent.pushFrom start (by decide) (Int.le_refl _) ?_ (List.nil_subset _)).weaken ?_
  · exact fun c hc => .inl ⟨2 * maxNesting - 2, by omega, by simp [← hk, hc]⟩
  · exact fun _ _ h => h.subset (List.nil_subset _)

theorem bent_update {m : ℤ} {expr : ExprParser} (h : ExprBent m expr) (lhs : NodeId)
    (operator : Token) :
    Bent (Held []) (update expr lhs operator) fun k _ => k.exprParts = [] := by
  unfold update
  split
  · exact .pure fun _ _ => rfl
  · exact .pure fun _ _ => rfl
  · split
    · exact (h _ _).bind fun rhs => .pure fun _ _ => rfl
    · exact fun _ _ _ hRun => by cases hRun

abbrev InnerBent (inner : Inner) : Prop := ExprBent (2 * maxNesting - 2) inner.expr

theorem InnerBent.runs_assignOrCall (h : InnerBent inner) : Runs Grown (assignOrCall inner) := by
  have hExpr := h.runs
  refine Bent.runs ?_
  refine Bent.still.bind fun token => Bent.still.bind fun b => .ite ?_ ?_
  · exact (bent_callArgs h).bind fun args => Bent.still.bind fun _ => bent_parts _ rfl
  refine Bent.still.bind fun n => (bent_indices h n _).bind fun ids => ?_
  dsimp only
  refine .ite (Bent.still.bind ?rest) (Bent.still.bind ?rest)
  refine fun called => .ite ?_ ?_
  · exact Bent.grown.weaken fun _ _ hHeld => hHeld.subset (List.nil_subset _)
  refine (bent_parts _ rfl).bind fun lhs => Bent.still.bind fun operator => ?_
  refine (bent_update h lhs operator).bind fun k => Bent.still.bind fun _ => ?_
  intro p q id hRun hk
  have hBears : Bears Grown k := BearsPlain.bears k hk
  exact ⟨Runs.related hRun, by simp [Held]⟩

theorem InnerBent.runs_ascent (h : InnerBent inner)
    (hBlock : ∀ decls, Runs Grown (inner.block decls)) : Runs Grown (ascent inner) := by
  refine Bent.runs ?_
  refine Bent.still.bind fun first => Bent.still.bind fun _ => Bent.still.bind fun _ => ?_
  refine Bent.still.bind fun token => Bent.grown.bind fun loopVar => Bent.still.bind fun _ => ?_
  refine Bent.still.bind fun start => (h _ _).bind fun low => Bent.still.bind fun _ => ?_
  refine (h _ _).bind fun high => Bent.bind (Bent.still.bind fun span => bent_range low high ?_) ?_
  · omega
  intro bounds
  refine Bent.still.bind fun _ => Bent.grown.bind fun body => ?_
  refine (Bent.pushFrom _ (by decide) (Int.le_refl _) ?_ (List.nil_subset _)).weaken ?_
  · split <;> exact fun c hc => .inl ⟨2 * maxNesting - 2 + 1, by omega, by simp_all⟩
  · exact fun _ _ h => h.subset (List.nil_subset _)

theorem InnerBent.runs_stmts (h : InnerBent inner)
    (hBlock : ∀ decls, Runs Grown (inner.block decls)) (stop : Parser → Bool) (n : Nat) :
    Runs Grown (stmts inner stop n) := by
  have hExpr := h.runs
  have hCall := h.runs_assignOrCall
  have hAscent := h.runs_ascent hBlock
  infer_instance

theorem innerBent {levels : Nat} (h : levels ≤ maxNesting) (block : List NodeId → Parse NodeId) :
    InnerBent ⟨exprAt levels, block⟩ :=
  fun power held p q id hRun hHeld => by
    obtain ⟨hGrown, hBent⟩ := bent_exprAt h power held p q id hRun hHeld
    exact ⟨hGrown, hBent.raise (by omega)⟩

theorem runs_blockAt_grown {levels : Nat} (h : levels ≤ maxNesting) (decls : List NodeId) :
    Runs Grown (blockAt levels decls) := by
  induction levels generalizing decls with
  | zero =>
    unfold blockAt
    infer_instance
  | succ levels ih =>
    have hLevels : levels ≤ maxNesting := Nat.le_of_succ_le h
    exact runs_blockWith ⟨exprAt levels, blockAt levels⟩ decls
      ((innerBent hLevels _).runs_stmts (ih hLevels))

theorem runs_script_grown {host : Host} {p q : Parser} {u : Unit} (h : script host p = .ok u q) :
    Grown p q := by
  obtain ⟨r, s, ids, hHost, hStmts, -, hTree⟩ := script_eq_ok h
  have hLevels : maxNesting - r.nesting ≤ maxNesting := Nat.sub_le _ _
  have hDeclare : Runs Grown (host.definitions.forM fun d => do
      let _ ← declare d ⟨⟨0, p.file⟩, ⟨0, p.file⟩⟩) := runs_forM (fun _ => inferInstance) _
  have hBody : Runs Grown (stmts (innerOf r) (fun _ => false) r.rounds) :=
    (innerBent hLevels _).runs_stmts (fun _ => runs_blockAt_grown hLevels _) _ _
  have hBlock : Bears Grown (.block ids s.table) := inferInstance
  have hRoot := ((hDeclare.related hHost).trans (hBody.related hStmts)).trans
    (hBlock.push s (s.spanFrom ⟨0, p.file⟩))
  rw [Grown, hTree]
  exact hRoot

end Statements

end Parse

/-! ### Chains of programs that are written down -/

theorem exists_of_mem_mapM {α β : Type} {f : α → Option β} {xs : List α} {ys : List β}
    (h : xs.mapM f = some ys) {y : β} (hy : y ∈ ys) : ∃ x, f x = some y := by
  induction xs generalizing ys with
  | nil =>
    cases h
    cases hy
  | cons x xs ih =>
    simp only [List.mapM_cons, Option.bind_eq_bind, Option.bind_eq_some_iff] at h
    obtain ⟨a, ha, as, has, hEnd⟩ := h
    cases hEnd
    rcases List.mem_cons.mp hy with rfl | hy
    · exact ⟨x, ha⟩
    · exact ih has hy

namespace Tree

variable {t : Tree}

/-- A statement that is read of a block is read of some node. -/
theorem WellFormed.exists_stmt? (h : t.WellFormed) {id : NodeId} {given : List String}
    {body : List (Stmt Expr)} (hb : t.block? id = some (given, body)) {s : Stmt Expr}
    (hs : s ∈ body) : ∃ i k, t.kind? i = some k ∧ t.stmtOf t.block? k = some s := by
  cases hk : t.kind? id with
  | none => simp [block?, blockAt, hk] at hb
  | some k =>
    cases k with
    | block stmts table =>
      rw [h.block?_eq hk] at hb
      simp only [blockOf, Option.bind_eq_bind, Option.bind_eq_some_iff] at hb
      obtain ⟨ys, hRead, hEnd⟩ := hb
      split at hEnd
      · cases hEnd
        obtain ⟨i, hi⟩ := exists_of_mem_mapM hRead hs
        exact ⟨i, Option.bind_eq_some_iff.mp hi⟩
      · cases hEnd
    | _ => simp [block?, blockAt, hk] at hb

theorem WellFormed.exists_exprOf (h : t.WellFormed) {id : NodeId} {e : Expr}
    (he : t.expr? id = some e) : ∃ k, t.kind? id = some k ∧ t.exprOf t.expr? k = some e := by
  cases hk : t.kind? id with
  | none => simp [expr?, exprAt, hk] at he
  | some k => exact ⟨k, rfl, h.expr?_eq hk ▸ he⟩

theorem range?_eq_some {id start stop : NodeId} (h : t.range? id = some (start, stop)) :
    t.kind? id = some (.range start stop) := by
  rw [range?] at h
  split at h <;> cases h
  assumption

end Tree

theorem Tree.ascent_of_stmtOf {t : Tree} {block : BlockReader} {k : NodeKind} {name : String}
    {low high : Expr} {body : List (Stmt Expr)}
    (h : t.stmtOf block k = some (.rangeLoop false name low high body)) :
    ∃ bounds id start stop, k = .ascent bounds id ∧ t.kind? bounds = some (.range start stop) ∧
      t.expr? start = some low := by
  cases k with
  | ascent bounds id =>
    simp only [stmtOf, rangeLoopOf, Option.bind_eq_bind, Option.bind_eq_some_iff] at h
    obtain ⟨⟨start, stop⟩, hRange, read, -, hEnd⟩ := h
    split at hEnd
    · simp only [Option.bind_eq_some_iff] at hEnd
      obtain ⟨low', hLow, high', -, hEq⟩ := hEnd
      cases hEq
      exact ⟨bounds, id, start, stop, rfl, range?_eq_some hRange, hLow⟩
    · cases hEnd
  | descent bounds id =>
    simp only [stmtOf, rangeLoopOf, Option.bind_eq_bind, Option.bind_eq_some_iff] at h
    obtain ⟨_, -, _, -, hEnd⟩ := h
    split at hEnd <;> simp [Option.bind_eq_some_iff] at hEnd
  | definition d =>
    cases d <;> simp [stmtOf, callableOf, Option.bind_eq_some_iff] at h
  | _ => simp [stmtOf, Option.bind_eq_some_iff] at h

/-- A returned value is an expression. -/
theorem Tree.returnValue_of_stmtOf {t : Tree} {block : BlockReader} {k : NodeKind} {e : Expr}
    (h : t.stmtOf block k = some (.returnStmt (some e))) :
    ∃ value, k = .returnValue value ∧ t.expr? value = some e := by
  cases k with
  | returnValue value =>
    simp only [stmtOf, Option.bind_eq_bind, Option.bind_eq_some_iff] at h
    obtain ⟨e', hValue, hEq⟩ := h
    cases hEq
    exact ⟨value, rfl, hValue⟩
  | ascent bounds id | descent bounds id =>
    simp only [stmtOf, rangeLoopOf, Option.bind_eq_bind, Option.bind_eq_some_iff] at h
    obtain ⟨_, -, _, -, hEnd⟩ := h
    split at hEnd <;> simp [Option.bind_eq_some_iff] at hEnd
  | definition d =>
    cases d <;> simp [stmtOf, callableOf, Option.bind_eq_some_iff] at h
  | _ => simp [stmtOf, Option.bind_eq_some_iff] at h

def Term.one : Term := .num ⟨"1", rfl⟩

/-- The sum 1 + ... + 1 of `n + 1` terms. -/
def Term.sum : Nat → Term
  | 0 => one
  | n + 1 => .binary .add (sum n) one

theorem Term.nesting_sum (n : Nat) {c : Power} (hc : c.rank ≤ Power.additive.rank) :
    ((sum n).phrase c).nesting ≤ 1 := by
  induction n generalizing c with
  | zero => simp [sum, one, phrase]
  | succ n ih =>
    have hLeft := ih (c := .additive) (Nat.le_refl _)
    have hLayer : ¬ Power.additive.rank < c.rank := Nat.not_lt.mpr hc
    simpa [sum, one, phrase, Phrase.wrap, BinaryOp.layer, BinaryOp.leftLayer, hLayer] using hLeft

theorem Tree.WellFormed.exists_chain_sum {t : Tree} (h : t.WellFormed) (n : Nat) {id : NodeId}
    (he : t.expr? id = some (Term.sum n).expr) :
    ∃ rest, (id :: rest).IsChain t.Link ∧ rest.length = n := by
  induction n generalizing id with
  | zero => exact ⟨[], .singleton id, rfl⟩
  | succ n ih =>
    obtain ⟨k, hk, hExpr⟩ := h.exists_exprOf he
    cases k <;> simp [exprOf, Term.sum, Term.expr, Option.bind_eq_some_iff] at hExpr
    case binary op lhs rhs =>
      obtain ⟨hLhs, -, -⟩ := hExpr
      obtain ⟨rest, hChain, hLength⟩ := ih hLhs
      refine ⟨lhs :: rest, .cons_cons ⟨_, hk, List.mem_cons_self ..⟩ hChain, ?_⟩
      rw [List.length_cons, hLength]

def Term.nest : Nat → Term
  | 0 => .ref "x"
  | n + 1 => .slice (.ref "x") (nest n) (.ref "x")

theorem Term.nesting_nest (n : Nat) (c : Power) : ((nest n).phrase c).nesting = n := by
  induction n generalizing c with
  | zero => rfl
  | succ n ih => simp [nest, phrase, ih]

theorem Tree.WellFormed.exists_chain_nest {t : Tree} (h : t.WellFormed) (n : Nat) {id : NodeId}
    (he : t.expr? id = some (Term.nest n).expr) :
    ∃ rest, (id :: rest).IsChain t.Link ∧ t.turns (id :: rest) = 2 * n := by
  induction n generalizing id with
  | zero => exact ⟨[], .singleton id, rfl⟩
  | succ n ih =>
    obtain ⟨k, hk, hExpr⟩ := h.exists_exprOf he
    cases k <;> simp [exprOf, Term.nest, Term.expr, Option.bind_eq_some_iff] at hExpr
    case slice base bounds =>
      obtain ⟨start, stop, hRange, hBase, hStart, -⟩ := hExpr
      have hBounds := Tree.range?_eq_some hRange
      -- the array is an expression and the range is not, so the first link is a turn
      have hNe : base ≠ bounds := by
        rintro rfl
        rw [h.expr?_eq hBounds] at hBase
        cases hBase
      obtain ⟨rest, hChain, hTurns⟩ := ih hStart
      refine ⟨bounds :: start :: rest, ?_, ?_⟩
      · refine .cons_cons ⟨_, hk, by simp⟩ (.cons_cons ⟨_, hBounds, by simp⟩ hChain)
      · simp [turns, hk, hBounds, NodeKind.leftPart?, hNe, hTurns]
        omega

/-- A program that is written down and nested within the limit is found again. -/
theorem exists_parse_render {body : List (Stmt Term)} (hDistinct : Stmt.Distinct [] body)
    (hNesting : (Stmt.phrases body).nesting ≤ maxNesting) :
    ∃ t, parse ((Stmt.render body).map Word.token) "" .empty = .ok t ∧ t.WellFormed ∧
      t.block? t.root = some ([], Stmt.mapAll Term.expr body) := by
  have hTokens : ((Stmt.render body).map Word.token).map Token.word = Stmt.render body := by
    simp [Function.comp_def, Word.token, Token.word]
  have hHost : Stmt.Distinct (Host.empty.definitions.map Definition.name) body := hDistinct
  have hScript := Parse.judged_script hHost (Parser.proper_start hTokens) rfl rfl rfl hTokens
    (p := Parser.start ((Stmt.render body).map Word.token) "" true)
  cases hRun : Parse.script .empty (Parser.start ((Stmt.render body).map Word.token) "" true) with
  | ok a q =>
    rw [hRun] at hScript
    have hParse : parse ((Stmt.render body).map Word.token) "" .empty = .ok q.tree := by
      rw [parse, hRun]
    exact ⟨q.tree, hParse, parse_wellFormed hParse, hScript.2 (parse_wellFormed hParse)⟩
  | fail d q =>
    rw [hRun] at hScript
    exact absurd hNesting hScript.1

/-- A loop over a range that starts with the term. -/
theorem exists_parse_loop {e : Term} (h : e.whole.nesting ≤ maxNesting) :
    ∃ t, parse ((Stmt.render [.rangeLoop false "i" e (.ref "x") []]).map Word.token) "" .empty =
        .ok t ∧ t.WellFormed ∧ ∃ id body bounds start stop,
        t.kind? id = some (.ascent bounds body) ∧ t.kind? bounds = some (.range start stop) ∧
        t.expr? start = some e.expr := by
  have hDistinct : Stmt.Distinct [] [Stmt.rangeLoop false "i" e (.ref "x") []] := by
    refine .block (by simp [Stmt.declares, Stmt.names]) ?_
    simp only [List.mem_singleton, forall_eq, Stmt.blocks]
    exact .block (by simp [Stmt.declares]) (by simp)
  have hNesting : (Stmt.phrases [.rangeLoop false "i" e (.ref "x") []]).nesting ≤ maxNesting := by
    have hOne : 1 ≤ maxNesting := by decide
    simpa [Stmt.phrases, Stmt.phrase, Term.whole, Term.phrase, hOne] using h
  obtain ⟨t, hParse, hWellFormed, hBlock⟩ := exists_parse_render hDistinct hNesting
  obtain ⟨id, k, hk, hStmt⟩ := hWellFormed.exists_stmt? hBlock (List.mem_cons_self ..)
  obtain ⟨bounds, body, start, stop, rfl, hRange, hStart⟩ := Tree.ascent_of_stmtOf hStmt
  exact ⟨t, hParse, hWellFormed, id, body, bounds, start, stop, hk, hRange, hStart⟩

/-- Chains can be of any length: the script `return 1 + ... + 1;` has one of as many nodes as the
sum has terms. -/
theorem exists_chain_length (n : Nat) : ∃ (t : Tree) (chain : List NodeId),
    parse ((Stmt.render [.returnStmt (some (.sum n))]).map Word.token) "" .empty = .ok t ∧
      chain.IsChain t.Link ∧ chain.length = n + 1 := by
  have hSum : (Term.sum n).whole.nesting ≤ maxNesting :=
    (Nat.succ_le_succ (Term.nesting_sum n (by decide))).trans (by decide)
  have hDistinct : Stmt.Distinct [] [Stmt.returnStmt (some (Term.sum n))] :=
    .block (by simp [Stmt.declares, Stmt.names]) (by simp [Stmt.blocks])
  have hNesting : (Stmt.phrases [.returnStmt (some (Term.sum n))]).nesting ≤ maxNesting := by
    simpa [Stmt.phrases, Stmt.phrase] using hSum
  obtain ⟨t, hParse, hWellFormed, hBlock⟩ := exists_parse_render hDistinct hNesting
  obtain ⟨id, k, hk, hStmt⟩ := hWellFormed.exists_stmt? hBlock (List.mem_cons_self ..)
  obtain ⟨value, rfl, hValue⟩ := Tree.returnValue_of_stmtOf hStmt
  obtain ⟨rest, hChain, hLength⟩ := hWellFormed.exists_chain_sum n hValue
  exact ⟨t, value :: rest, hParse, hChain, by rw [List.length_cons, hLength]⟩

example : (Stmt.render [.returnStmt (some (.sum 2))]).map Word.text =
    ["return", "1", "+", "1", "+", "1", ";", "EOF"] := by
  decide

/-- Chains can turn twice for each level. -/
theorem exists_chain_turns {n : Nat} (h : n < maxNesting) :
    ∃ (tokens : List Token) (t : Tree) (chain : List NodeId), parse tokens "" .empty = .ok t ∧
      chain.IsChain t.Link ∧ t.turns chain = 2 * (n + 1) := by
  have hNesting : (Term.nest n).whole.nesting ≤ maxNesting := by
    rwa [Term.whole, Phrase.nesting_deeper, Term.nesting_nest]
  obtain ⟨t, hParse, hWellFormed, id, body, bounds, start, stop, hLoop, hRange, hStart⟩ :=
    exists_parse_loop hNesting
  obtain ⟨rest, hChain, hTurns⟩ := hWellFormed.exists_chain_nest n hStart
  refine ⟨_, t, id :: bounds :: start :: rest, hParse, ?_, ?_⟩
  · exact .cons_cons ⟨_, hLoop, by simp⟩ (.cons_cons ⟨_, hRange, by simp⟩ hChain)
  · simp [Tree.turns, hLoop, hRange, hTurns, NodeKind.leftPart?]
    omega

/-! ### What the limit bounds -/

/-- The limit does not bound how long chains are. -/
theorem expr_chain_unbounded :
    ¬ ∀ (tokens : List Token) (file : String) (host : Host) (t : Tree) (chain : List NodeId),
      parse tokens file host = .ok t → chain.IsChain t.Link →
        chain.length ≤ 2 * maxNesting + 1 := by
  intro hBound
  obtain ⟨t, chain, hParse, hChain, hLength⟩ := exists_chain_length (2 * maxNesting + 1)
  have hLe := hBound _ "" .empty t chain hParse hChain
  omega

/-- Links to left operands and indexed arrays apart, an expression goes no deeper than twice the
limit on nesting. -/
theorem parse_turns_le (tokens : List Token) (file : String) (host : Host) (t : Tree)
    (h : parse tokens file host = .ok t) (chain : List NodeId) (hChain : chain.IsChain t.Link) :
    t.turns chain ≤ 2 * maxNesting := by
  rw [parse] at h
  split at h
  · rename_i u q hRun
    cases h
    cases chain with
    | nil => exact Nat.zero_le _
    | cons id rest =>
      cases rest with
      | nil => exact Nat.zero_le _
      | cons part rest =>
        obtain ⟨⟨k, hk, -⟩, -⟩ := List.isChain_cons_cons.mp hChain
        have hGrown := (Parse.runs_script_grown hRun).2
        have hBends := hGrown id (Nat.zero_le _) (Tree.lt_size_of_kind? hk)
        exact_mod_cast hBends q.tree (.refl _) _ hChain
  · cases h

/-- Ranges inside ranges reach the bound. -/
theorem parse_turns_le_ranges : ∃ (tokens : List Token) (t : Tree) (chain : List NodeId),
    parse tokens "" .empty = .ok t ∧ chain.IsChain t.Link ∧ t.turns chain = 512 ∧
      t.turns chain ≤ 2 * maxNesting := by
  obtain ⟨tokens, t, chain, hParse, hChain, hTurns⟩ :=
    exists_chain_turns (show 255 < maxNesting by decide)
  refine ⟨tokens, t, chain, hParse, hChain, hTurns, ?_⟩
  exact parse_turns_le tokens "" .empty t hParse chain hChain

end StageScript

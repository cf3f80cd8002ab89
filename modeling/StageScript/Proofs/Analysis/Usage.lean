import Mathlib
import StageScript.Proofs.Analysis.Effect

/-!
# How often variables are used

The analysis counts reads of a variable and assignments to it.  Each counter goes up by one at a
node that uses the variable, and the node is visited once there; so the counter and the visits of
such nodes are in balance (`Balanced`), whatever else is walked.  All of them wrap around, so the
balance is one modulo 2^32.  In the end every node was visited at most once, so the counters have
the number of visited nodes that use the variable, if the tree has less than 2^32 nodes.

A variable is on a path that is taken when its block is: a block that is walked walks the
statement that introduces the variable, and nothing outside a block sees it
(`Whole.declared_iff`).
-/

namespace StageScript

/-! ### Counters -/

theorem narrow_modEq (n : Nat) : narrow n ≡ n [MOD 2 ^ 32] := Nat.mod_modEq n (2 ^ 32)

namespace Tree

theorem raised_modEq (count uses : Nat) : raised count uses ≡ count + uses [MOD 2 ^ 32] := by
  rw [raised]
  split
  · rename_i hNone
    rw [hNone, Nat.add_zero]
  · exact narrow_modEq _

theorem raised_lt {count : Nat} (h : count < 2 ^ 32) (uses : Nat) : raised count uses < 2 ^ 32 := by
  rw [raised]
  split
  · exact h
  · exact narrow_lt _

end Tree

/-- A counter of definitions: the name that it counts at a node, and where its value is. -/
structure Counter where
  name? : NodeKind → Option String
  value : DefState → Nat
  value_counted : ∀ (t : Tree) (chain : Chain) (k : NodeKind) (id : NodeId) (s : DefState),
    value (t.counted chain k id s) = Tree.raised (value s) (t.uses chain (name? k) id)
  value_marked : ∀ s : DefState, value { s with unreachable := false } = value s
  value_fresh : ∀ returns, value ⟨true, returns, 0, 0⟩ = 0
  named : ∀ k name, name? k = some name → k.isDefinition = false

namespace Counter

def reads : Counter where
  name? := NodeKind.read?
  value := DefState.reads
  value_counted _ _ _ _ _ := rfl
  value_marked _ := rfl
  value_fresh _ := rfl
  named k name h := by cases k <;> simp_all [NodeKind.read?, NodeKind.isDefinition]

def assigns : Counter where
  name? := NodeKind.assigned?
  value := DefState.assigns
  value_counted _ _ _ _ _ := rfl
  value_marked _ := rfl
  value_fresh _ := rfl
  named k name h := by cases k <;> simp_all [NodeKind.assigned?, NodeKind.isDefinition]

/-- The name of the node `n` stands for the definition `d`, in the tables that `n` sees. -/
def Hits (q : Counter) (t : Tree) (n d : NodeId) : Prop :=
  ∃ k name chain, t.kind? n = some k ∧ q.name? k = some name ∧ t.Sees n chain ∧
    chain.find? name = some d

def valueAt (q : Counter) (a : Annotations) (d : NodeId) : Nat :=
  ((a.state? d).map q.value).getD 0

noncomputable def visitsOf (q : Counter) (t : Tree) (a : Annotations) (d : NodeId) : Nat :=
  ∑ n ∈ Finset.range t.size, a.visits n * tally (q.Hits t n d ∧ t.isVariable d = true)

variable {q : Counter} {t : Tree} {a b : Annotations} {d : NodeId}

theorem valueAt_of_state? {s : DefState} (h : a.state? d = some s) : q.valueAt a d = q.value s := by
  rw [valueAt, h]
  rfl

/-- A node uses the variable as often as its counter goes up there. -/
theorem uses_eq_tally (hTree : t.WellFormed) {place : Place} {id : NodeId} {k : NodeKind}
    (hs : Stands t place id) (hk : t.kind? id = some k) (d : NodeId) :
    t.uses place.chain (q.name? k) d = tally (q.Hits t id d ∧ t.isVariable d = true) := by
  have hHits : q.Hits t id d ↔ (q.name? k).bind place.chain.find? = some d := by
    rw [Option.bind_eq_some_iff]
    constructor
    · rintro ⟨l, name, _, hl, hName, ⟨place', hs', rfl⟩, hf⟩
      rw [hk] at hl
      cases hl
      rw [hs.unique hTree hs']
      exact ⟨name, hName, hf⟩
    · rintro ⟨name, hName, hf⟩
      exact ⟨k, name, place.chain, hk, hName, hs.sees, hf⟩
  rw [Tree.uses]
  by_cases h : q.Hits t id d ∧ t.isVariable d = true
  · rw [tally_of h, if_pos ⟨hHits.mp h.1, h.2⟩]
  · rw [tally_of_not h, if_neg]
    rintro ⟨hName, hVar⟩
    exact h ⟨hHits.mpr hName, hVar⟩

theorem visitsOf_congr (h : ∀ n, b.visits n = a.visits n) (d : NodeId) :
    q.visitsOf t b d = q.visitsOf t a d := by
  refine Finset.sum_congr rfl fun n _ => ?_
  rw [h]

theorem visitsOf_visit {id : NodeId} (hSize : a.entries.size = t.size) (hid : id < t.size)
    (d : NodeId) :
    q.visitsOf t (a.visit id) d ≡
      q.visitsOf t a d + tally (q.Hits t id d ∧ t.isVariable d = true) [MOD 2 ^ 32] := by
  have hVisits : ∀ n, (a.visit id).visits n ≡ a.visits n + (if n = id then 1 else 0)
      [MOD 2 ^ 32] := by
    intro n
    by_cases hn : n = id
    · subst hn
      rw [if_pos rfl, a.visits_visit_self (hSize ▸ hid)]
      exact narrow_modEq _
    · rw [a.visits_visit_of_ne hn, if_neg hn, Nat.add_zero]
  have hSum : q.visitsOf t (a.visit id) d ≡
      ∑ n ∈ Finset.range t.size, (a.visits n + if n = id then 1 else 0) *
        tally (q.Hits t n d ∧ t.isVariable d = true) [MOD 2 ^ 32] :=
    Nat.ModEq.sum fun n _ => (hVisits n).mul_right _
  simp only [Nat.add_mul, ite_mul, one_mul, zero_mul, Finset.sum_add_distrib] at hSum
  rwa [Finset.sum_ite_eq', if_pos (Finset.mem_range.mpr hid)] at hSum

/-- What a node writes down raises the counter by its own use. -/
theorem valueAt_written {place : Place} {id : NodeId} {k : NodeKind} {free : Bool}
    {c e : Annotations} (hw : Written t place.chain id k free b c e) (hTree : t.WellFormed)
    (hs : Stands t place id) (hk : t.kind? id = some k)
    (hState : t.isVariable d = true → (c.state? d).isSome = true) :
    q.valueAt e d =
      Tree.raised (q.valueAt c d) (tally (q.Hits t id d ∧ t.isVariable d = true)) := by
  rw [← uses_eq_tally hTree hs hk, valueAt, valueAt, hw.states]
  cases hc : c.state? d with
  | some s => exact q.value_counted t place.chain k d s
  | none =>
    have hVar : t.isVariable d ≠ true := fun hd => by
      have hSome := hState hd
      rw [hc] at hSome
      cases hSome
    rw [Tree.uses, if_neg fun h => hVar h.2]
    rfl

theorem valueAt_marked {n : NodeId} (h : Marked n a b) (d : NodeId) :
    q.valueAt b d = q.valueAt a d := by
  rw [valueAt, valueAt, h.states]
  split
  · cases a.state? d with
    | none => rfl
    | some s => exact q.value_marked s
  · rfl

end Counter

/-! ### Balance -/

structure Booked (q : Counter) (t : Tree) (a : Annotations) : Prop where
  size : a.entries.size = t.size
  state : ∀ d, t.isVariable d = true → (a.state? d).isSome = true
  value_lt : ∀ d, q.valueAt a d < 2 ^ 32

/-- The counters went up as often as nodes that use the variable were visited. -/
def Balanced (q : Counter) (t : Tree) (a b : Annotations) : Prop :=
  ∀ d, q.valueAt b d + q.visitsOf t a d ≡ q.valueAt a d + q.visitsOf t b d [MOD 2 ^ 32]

def usageLaw (q : Counter) (t : Tree) : Law where
  Inv := Booked q t
  Pre _ := Booked q t
  Post _ _ := True
  Rel := Balanced q t

theorem Counter.valueAt_visit (q : Counter) (a : Annotations) (id d : NodeId) :
    q.valueAt (a.visit id) d = q.valueAt a d := by
  rw [valueAt, valueAt, a.state?_visit]

theorem Booked.visit {q : Counter} {t : Tree} {a : Annotations} (h : Booked q t a) (id : NodeId) :
    Booked q t (a.visit id) := by
  refine ⟨Array.size_modify.trans h.size, fun d hd => ?_, fun d => ?_⟩
  · rw [a.state?_visit]
    exact h.state d hd
  · rw [q.valueAt_visit]
    exact h.value_lt d

theorem Law.Step.booked {q : Counter} {t : Tree} {place : Place} {id : NodeId} {k : NodeKind}
    {a b c d : Annotations} {free : Bool} (h : (usageLaw q t).Step t place id k a b c d free) :
    Booked q t c := by
  cases hs : k.isStorage with
  | false => exact (h.inv hs).2
  | true =>
    rw [h.idle hs]
    exact Booked.visit h.pre id

/-- A node is visited, and counted in the end. -/
theorem Law.Step.balanced {q : Counter} {t : Tree} {place : Place} {id : NodeId} {k : NodeKind}
    {a b c d : Annotations} {free : Bool} (h : (usageLaw q t).Step t place id k a b c d free)
    (hTree : t.WellFormed) : Balanced q t a d := by
  intro x
  have hPre : Booked q t a := h.pre
  have hNames : q.valueAt b x + q.visitsOf t (a.visit id) x ≡
      q.valueAt (a.visit id) x + q.visitsOf t b x [MOD 2 ^ 32] := h.names x
  have hParts : q.valueAt c x + q.visitsOf t b x ≡ q.valueAt b x + q.visitsOf t c x
      [MOD 2 ^ 32] := h.parts x
  have hOwn := Counter.visitsOf_visit (q := q) hPre.size (h.stands.lt_size hTree) x
  have hWritten : q.valueAt d x ≡ q.valueAt c x + tally (q.Hits t id x ∧ t.isVariable x = true)
      [MOD 2 ^ 32] := by
    rw [Counter.valueAt_written (q := q) h.written hTree h.stands h.kind (h.booked.state x)]
    exact Tree.raised_modEq _ _
  rw [q.valueAt_visit] at hNames
  rw [Counter.visitsOf_congr (q := q) (t := t) h.written.visits x]
  simp only [Nat.ModEq] at *
  omega

theorem usageLaw_holds (q : Counter) {t : Tree} (hTree : t.WellFormed) :
    (usageLaw q t).Holds t where
  refl _ _ := rfl
  trans := by
    intro a b c hab hbc d
    have hFirst := hab d
    have hSecond := hbc d
    simp only [Nat.ModEq] at *
    omega
  kept _ _ := trivial
  pre _ h := h
  marked := by
    intro a b n ha hm
    refine ⟨⟨hm.size.trans ha.size, fun d hd => ?_, fun d => ?_⟩, fun d => ?_⟩
    · rw [hm.states]
      split
      · rw [Option.isSome_map]
        exact ha.state d hd
      · exact ha.state d hd
    · rw [Counter.valueAt_marked hm]
      exact ha.value_lt d
    · rw [Counter.valueAt_marked hm, Counter.visitsOf_congr hm.visits]
  visit _ _ h := h.visit _
  node := by
    intro place id k a b c d free h
    refine ⟨⟨h.written.size.trans h.booked.size, fun x hx => ?_, fun x => ?_⟩, h.balanced hTree,
      trivial⟩
    · rw [h.written.states, Option.isSome_map]
      exact h.booked.state x hx
    · rw [Counter.valueAt_written h.written hTree h.stands h.kind (h.booked.state x)]
      exact Tree.raised_lt (h.booked.value_lt x) _

/-! ### The whole analysis -/

/-- Before an analysis nothing is counted. -/
theorem state?_ofTree (t : Tree) (d : NodeId) :
    (Annotations.ofTree t).state? d = none ∧ t.isVariable d = false ∨
      ∃ returns, (Annotations.ofTree t).state? d = some ⟨true, returns, 0, 0⟩ := by
  rw [Annotations.state?, Annotations.get?_ofTree, Tree.isVariable, Tree.kind?]
  cases t.get? d with
  | none => exact Or.inl ⟨rfl, rfl⟩
  | some node =>
    obtain ⟨kind, span⟩ := node
    cases kind with
    | definition e => cases e <;> exact Or.inr ⟨_, rfl⟩
    | _ => exact Or.inl ⟨rfl, rfl⟩

theorem valueAt_ofTree (q : Counter) (t : Tree) (d : NodeId) : q.valueAt (.ofTree t) d = 0 := by
  rw [Counter.valueAt]
  rcases state?_ofTree t d with ⟨hState, -⟩ | ⟨returns, hState⟩
  · rw [hState]
    rfl
  · rw [hState]
    exact q.value_fresh returns

theorem booked_ofTree (q : Counter) (t : Tree) : Booked q t (.ofTree t) := by
  refine ⟨Array.size_map, fun d hd => ?_, fun d => valueAt_ofTree q t d ▸ Nat.two_pow_pos 32⟩
  rcases state?_ofTree t d with ⟨-, hNot⟩ | ⟨returns, hState⟩
  · rw [hd] at hNot
    cases hNot
  · rw [hState]
    rfl

/-- In the end the counter of a variable has the visits of the nodes that use it. -/
theorem analyze_balanced (q : Counter) {t : Tree} (hTree : t.WellFormed) {options : Options}
    {a : Annotations} (h : analyze t options = .ok a) (d : NodeId) :
    q.valueAt a d = narrow (q.visitsOf t a d) := by
  obtain ⟨hFollows, -⟩ := (usageLaw_holds q hTree).of_analyze hTree (booked_ofTree q t) h
  have hBalance : q.valueAt a d + q.visitsOf t (.ofTree t) d ≡
      q.valueAt (.ofTree t) d + q.visitsOf t a d [MOD 2 ^ 32] := hFollows.rel d
  have hNone : q.visitsOf t (.ofTree t) d = 0 := by
    refine Finset.sum_eq_zero fun n _ => ?_
    rw [Annotations.visits_ofTree, Nat.zero_mul]
  have hBooked : Booked q t a := hFollows.inv
  rw [valueAt_ofTree, hNone, Nat.add_zero, Nat.zero_add] at hBalance
  rw [← narrow_of_lt (hBooked.value_lt d)]
  exact hBalance

theorem encard_eq_sum_tally {p : NodeId → Prop} {size : Nat} (h : ∀ n, p n → n < size) :
    {n | p n}.encard = ((∑ n ∈ Finset.range size, tally (p n) : Nat) : ℕ∞) := by
  classical
  have hSet : {n | p n} = ((Finset.range size).filter p : Set NodeId) := by
    ext n
    simp only [Set.mem_ofPred_eq, Finset.coe_filter, Finset.mem_range]
    exact ⟨fun hn => ⟨h n hn, hn⟩, fun hn => hn.2⟩
  rw [hSet, Set.encard_coe_eq_coe_finsetCard, Finset.card_filter]
  refine congrArg Nat.cast (Finset.sum_congr rfl fun n _ => ?_)
  by_cases hn : p n
  · rw [if_pos hn, tally_of hn]
  · rw [if_neg hn, tally_of_not hn]

theorem tally_pos_iff {p : Prop} : 0 < tally p ↔ p := by
  by_cases h : p
  · rw [tally_of h]
    exact ⟨fun _ => h, fun _ => Nat.zero_lt_one⟩
  · rw [tally_of_not h]
    exact ⟨fun hn => absurd hn (Nat.lt_irrefl 0), fun hn => absurd hn h⟩

namespace Whole

variable {t : Tree} {options : Options} {fresh : List NodeId} {a : Annotations}

theorem isVisited_iff (h : Whole t options fresh a) {n : NodeId} {k : NodeKind}
    (hk : t.kind? n = some k) (hd : k.isDefinition = false) :
    a.isVisited n = true ↔ Live t options (.node n) := by
  rw [Annotations.isVisited, decide_eq_true_eq, h.visits_node hk hd, tally_pos_iff]

/-- Each node that uses a variable is visited at most once. -/
theorem visitsOf_eq (h : Whole t options fresh a) (q : Counter) {d : NodeId}
    (hd : t.isVariable d = true) : q.visitsOf t a d =
      ∑ n ∈ Finset.range t.size, tally (a.isVisited n = true ∧ q.Hits t n d) := by
  refine Finset.sum_congr rfl fun n _ => ?_
  by_cases hHits : q.Hits t n d
  · have hUse := hHits
    obtain ⟨k, name, chain, hk, hName, -, -⟩ := hUse
    have hPlain := q.named k name hName
    rw [tally_of ⟨hHits, hd⟩, Nat.mul_one, h.visits_node hk hPlain, h.isVisited_iff hk hPlain]
    simp only [hHits, and_true]
  · rw [tally_of_not fun hn => hHits hn.1, tally_of_not fun hn => hHits hn.2, Nat.mul_zero]

/-- The counter of a variable has the number of visited nodes that use it. -/
theorem valueAt_eq (h : Whole t options fresh a) (hSize : t.size < 2 ^ 32)
    (hRun : analyze t options = .ok a) (q : Counter) {d : NodeId} (hd : t.isVariable d = true) :
    (q.valueAt a d : ℕ∞) = {n | a.isVisited n = true ∧ q.Hits t n d}.encard ∧
      q.valueAt a d ≤ t.size := by
  have hLe : q.visitsOf t a d ≤ t.size := by
    rw [h.visitsOf_eq q hd]
    refine (Finset.sum_le_sum fun n _ => tally_le_one _).trans ?_
    rw [Finset.sum_const, Finset.card_range, smul_eq_mul, Nat.mul_one]
  rw [analyze_balanced q h.tree hRun, narrow_of_lt (hLe.trans_lt hSize)]
  refine ⟨?_, hLe⟩
  rw [h.visitsOf_eq q hd]
  refine (encard_eq_sum_tally fun n hn => ?_).symm
  obtain ⟨-, k, -, -, hk, -⟩ := hn
  exact Tree.lt_size_of_kind? hk

/-- A counter that did not go up: no visited node uses the variable. -/
theorem valueAt_eq_zero_iff (h : Whole t options fresh a) (hSize : t.size < 2 ^ 32)
    (hRun : analyze t options = .ok a) (q : Counter) {d : NodeId} (hd : t.isVariable d = true) :
    q.valueAt a d = 0 ↔ ∀ n, a.isVisited n = true → ¬ q.Hits t n d := by
  have hCount := (h.valueAt_eq hSize hRun q hd).1
  rw [← Nat.cast_inj (R := ℕ∞), hCount, Nat.cast_zero, Set.encard_eq_zero,
    Set.eq_empty_iff_forall_notMem]
  exact forall_congr' fun n => not_and

/-- Other definitions are not counted. -/
theorem valueAt_eq_zero (h : Whole t options fresh a) (hRun : analyze t options = .ok a)
    (q : Counter) {d : NodeId} (hd : t.isVariable d = false) : q.valueAt a d = 0 := by
  have hNone : q.visitsOf t a d = 0 := by
    refine Finset.sum_eq_zero fun n _ => ?_
    rw [tally_of_not, Nat.mul_zero]
    rintro ⟨-, hVar⟩
    rw [hd] at hVar
    cases hVar
  rw [analyze_balanced q h.tree hRun, hNone]
  rfl

end Whole

/-! ### Where variables are declared -/

def LiveAround (t : Tree) (options : Options) (chain : Chain) : Prop :=
  ∀ table outer, table :: outer <:+ chain →
    ∃ b stmts, Live t options (.node b) ∧ t.kind? b = some (.block stmts table)

/-- What is live is in live blocks only. -/
theorem Live.around {t : Tree} (h : t.WellFormed) {options : Options} {m : Mark}
    (hl : Live t options m) : ∀ id, m = .node id ∨ m = .definition id →
      ∀ place, Stands t place id → LiveAround t options place.chain := by
  induction hl with
  | root =>
    rintro id (⟨⟨⟩⟩ | ⟨⟨⟩⟩) place hs table outer hSuffix
    obtain rfl := hs.unique h .root
    simp [Place.outermost] at hSuffix
  | @entry stmts table name d hr hName hf =>
    rintro id (⟨⟨⟩⟩ | ⟨⟨⟩⟩) place hs own outer hSuffix
    have hMem : d ∈ table.entries.map Prod.snd :=
      List.mem_map.mpr ⟨_, NameTable.mem_of_find? hf, rfl⟩
    obtain rfl := hs.unique h (.entry .root hr hMem)
    obtain ⟨rfl, -⟩ : own = table ∧ outer = [] := by
      simpa [Place.inside, Place.outermost, List.suffix_cons_iff] using hSuffix
    exact ⟨t.root, stmts, .root, hr⟩
  | @part n c k hn hk hPlain hc ih =>
    rintro id (⟨⟨⟩⟩ | ⟨⟨⟩⟩) place hs table outer hSuffix
    obtain ⟨q, hq⟩ := h.exists_place (Tree.lt_size_of_kind? hk)
    obtain rfl := hs.unique h (.part hq hk hc)
    rcases q.part_chain k c with ⟨stmts, own, rfl, hChain⟩ | hChain
    · rw [hChain, List.suffix_cons_iff] at hSuffix
      rcases hSuffix with hEq | hSuffix
      · cases hEq
        exact ⟨n, stmts, hn, hk⟩
      · exact ih n (Or.inl rfl) q hq table outer hSuffix
    · rw [hChain] at hSuffix
      exact ih n (Or.inl rfl) q hq table outer hSuffix
  | @used n d k q name hn hk hUsed hq hf ih =>
    rintro id (⟨⟨⟩⟩ | ⟨⟨⟩⟩) place hs table outer hSuffix
    rw [Chain.find?_eq_declaring?, Option.map_eq_some_iff] at hf
    obtain ⟨⟨declared, i⟩, hd, rfl⟩ := hf
    obtain ⟨own, rest, rfl, hDeclared, -⟩ := Chain.declaring?_suffix hd
    obtain ⟨p, hp, hChain⟩ := hq.declaring? hd
    obtain rfl := hs.unique h hp
    rw [hChain] at hSuffix
    exact ih n (Or.inl rfl) q hq table outer (hSuffix.trans hDeclared)
  | @body d b e hd hk hb ih =>
    rintro id (⟨⟨⟩⟩ | ⟨⟨⟩⟩) place hs table outer hSuffix
    obtain ⟨q, hq⟩ := h.exists_place (Tree.lt_size_of_kind? hk)
    obtain rfl := hs.unique h (.part hq hk (NodeKind.mem_children_of_body? hb))
    exact ih d (Or.inr rfl) q hq table outer hSuffix

theorem NameTable.find?_of_mem {table : NameTable} (h : (table.entries.map Prod.fst).Nodup)
    {name : String} {id : NodeId} (hm : (name, id) ∈ table.entries) :
    table.find? name = some id := by
  obtain ⟨before, after, hSplit⟩ := List.append_of_mem hm
  rw [find?, List.lookup_eq_some_iff]
  refine ⟨before, after, hSplit, fun e he => ?_⟩
  rw [hSplit, List.map_append, List.map_cons, List.nodup_append] at h
  have hne : e.1 ≠ name := h.2.2 e.1 (List.mem_map_of_mem he) name List.mem_cons_self
  simp [Ne.symm hne]

namespace Whole

variable {t : Tree} {options : Options} {fresh : List NodeId} {a : Annotations}

theorem isVisited_definition_iff (h : Whole t options fresh a) {id : NodeId} {e : Definition}
    (hk : t.kind? id = some (.definition e)) : a.isVisited id = true ↔
      Live t options (.definition id) ∨ LiveStatement t options id := by
  rw [Annotations.isVisited, decide_eq_true_eq, h.visits_definition hk,
    Nat.add_pos_iff_pos_or_pos, tally_pos_iff, tally_pos_iff]

/-- The block of a live variable is live. -/
theorem exists_block_of_live (h : Whole t options fresh a) {id : NodeId} {e : Definition}
    (hk : t.kind? id = some (.definition e))
    (hl : Live t options (.definition id) ∨ LiveStatement t options id) :
    ∃ b stmts table, t.kind? b = some (.block stmts table) ∧ Live t options (.node b) ∧
      id ∈ table.entries.map Prod.snd := by
  rcases hl with hl | ⟨b, stmts, table, hLive, hb, hm⟩
  · obtain ⟨b, l, hb, he⟩ := h.tree.exists_entry_of hk
    cases l with
    | block stmts table =>
      obtain ⟨q, hq⟩ := h.tree.exists_place (Tree.lt_size_of_kind? hb)
      obtain ⟨b', stmts', hLive, hb'⟩ := hl.around h.tree id (Or.inr rfl) _ (.entry hq hb he) table
        q.chain (List.suffix_refl _)
      exact ⟨b', stmts', table, hb', hLive, he⟩
    | _ => cases he
  · exact ⟨b, stmts, table, hb, hLive, h.tree.child_entry hb hm hk⟩

/-- The variables of a live block are live. -/
theorem live_of_block (h : Whole t options fresh a) (hComposed : t.Composed) {id b : NodeId}
    {name : String} {stmts : List NodeId} {table : NameTable}
    (hk : t.kind? id = some (.definition (.var name)))
    (hb : t.kind? b = some (.block stmts table)) (hl : Live t options (.node b))
    (he : id ∈ table.entries.map Prod.snd) :
    Live t options (.definition id) ∨ LiveStatement t options id := by
  obtain ⟨⟨own, _⟩, hEntry, rfl⟩ := List.mem_map.mp he
  obtain ⟨l, hKind, hShown⟩ := hComposed.shown b stmts table hb _ hEntry
  rw [hk] at hKind
  cases hKind
  rcases hShown name rfl with hm | ⟨s, hs, rhs, hInit⟩
  · exact Or.inr ⟨b, stmts, table, hl, hb, hm⟩
  · left
    obtain ⟨d, hd, hName⟩ := h.tree.declared_name _ (Tree.mem_declared_iff.mpr ⟨b, _, hb, hEntry⟩)
    rw [hk] at hd
    cases hd
    obtain rfl : name = own := hName
    have hFind := NameTable.find?_of_mem (h.tree.fits b _ hb).names_nodup hEntry
    obtain ⟨q, hq⟩ := h.tree.exists_place (Tree.lt_size_of_kind? hb)
    refine .used (.part hl hb rfl hs) hInit rfl (.part hq hb hs) ?_
    simp [Place.part, Place.inside, Chain.find?, hFind]

/-- A variable is reached or visited just if its block is visited. -/
theorem declared_iff (h : Whole t options fresh a) (hComposed : t.Composed) {id : NodeId}
    {name : String} (hk : t.kind? id = some (.definition (.var name))) :
    (a.isReachable id = true ∨ a.isVisited id = true) ↔
      ∃ b stmts table, t.kind? b = some (.block stmts table) ∧ a.isVisited b = true ∧
        id ∈ table.entries.map Prod.snd := by
  rw [h.reached_iff, h.isVisited_definition_iff hk]
  constructor
  · intro hl
    obtain ⟨b, stmts, table, hb, hLive, he⟩ := h.exists_block_of_live hk (by tauto)
    exact ⟨b, stmts, table, hb, (h.isVisited_iff hb rfl).mpr hLive, he⟩
  · rintro ⟨b, stmts, table, hb, hVisited, he⟩
    exact Or.inr (h.live_of_block hComposed hk hb ((h.isVisited_iff hb rfl).mp hVisited) he)

/-- The unused variables are those of visited blocks that are never read. -/
theorem mem_unused_iff (h : Whole t options fresh a) (hSize : t.size < 2 ^ 32)
    (hComposed : t.Composed) (hRun : analyze t options = .ok a) (id : NodeId) :
    id ∈ a.unusedVariables t ↔ (∃ name, t.kind? id = some (.definition (.var name))) ∧
      (∃ b stmts table, t.kind? b = some (.block stmts table) ∧ a.isVisited b = true ∧
        id ∈ table.entries.map Prod.snd) ∧
      ∀ n, a.isVisited n = true → ¬ Counter.reads.Hits t n id := by
  rw [Annotations.unusedVariables, List.mem_filterMap]
  -- What the list asks of a variable, in terms of its state.
  have hEach : ∀ {name s}, t.kind? id = some (.definition (.var name)) → a.state? id = some s →
      (((!s.unreachable || a.isVisited id) && s.reads == 0) = true ↔
        (∃ b stmts table, t.kind? b = some (.block stmts table) ∧ a.isVisited b = true ∧
          id ∈ table.entries.map Prod.snd) ∧
        ∀ n, a.isVisited n = true → ¬ Counter.reads.Hits t n id) := by
    intro name s hk hs
    have hReached : a.isReachable id = !s.unreachable := by
      rw [Annotations.isReachable, hs]
      rfl
    have hReads : Counter.reads.valueAt a id = s.reads := Counter.valueAt_of_state? hs
    rw [← h.declared_iff hComposed hk, ← h.valueAt_eq_zero_iff hSize hRun Counter.reads
      (Tree.isVariable_of_kind? hk), hReads, hReached, Bool.and_eq_true, Bool.or_eq_true,
      beq_iff_eq]
  constructor
  · rintro ⟨⟨i, d⟩, hm, hi⟩
    have hk := Tree.mem_definitions_iff.mp hm
    obtain ⟨s, hs, -⟩ := h.exists_state hk
    simp only [hs] at hi
    split at hi
    · rename_i hAll
      cases hi
      cases d with
      | var name =>
        refine ⟨⟨name, hk⟩, (hEach hk hs).mp ?_⟩
        simpa [Definition.isVariable] using hAll
      | _ => simp [Definition.isVariable] at hAll
    · cases hi
  · rintro ⟨⟨name, hk⟩, hUnused⟩
    obtain ⟨s, hs, -⟩ := h.exists_state hk
    refine ⟨(id, .var name), Tree.mem_definitions_iff.mpr hk, ?_⟩
    have hAll := (hEach hk hs).mpr hUnused
    simp only [hs, Definition.isVariable, Bool.true_and, hAll, if_true]

end Whole

theorem unusedVariables_pairwise (t : Tree) (a : Annotations) :
    (a.unusedVariables t).Pairwise (· < ·) := by
  rw [Annotations.unusedVariables, List.pairwise_filterMap]
  refine t.definitions_pairwise.imp ?_
  rintro ⟨i, d⟩ ⟨j, e⟩ hlt x hx y hy
  have hi : i = x := by grind
  have hj : j = y := by grind
  exact hi ▸ hj ▸ hlt

/-- The analysis counts uses exactly in a tree of less than 2^32 nodes.  The counters of a variable
have the number of visited nodes that read it, and that assign to it, which are no more than the
tree has nodes; other definitions are not counted.  The unused variables are those of visited blocks
that no visited node reads. -/
theorem analyze_counts_uses {tokens : List Token} {file : String} {host : Host} {tree : Tree}
    (h : parse tokens file host = .ok tree) (hSize : tree.size < 2 ^ 32) (options : Options) :
    ∃ a, analyze tree options = .ok a ∧
      (∀ id d, tree.kind? id = some (.definition d) → ∃ s, a.state? id = some s ∧
        (d.isVariable = true →
          (s.reads : ℕ∞) = {n | a.isVisited n = true ∧ Counter.reads.Hits tree n id}.encard ∧
          (s.assigns : ℕ∞) = {n | a.isVisited n = true ∧ Counter.assigns.Hits tree n id}.encard ∧
          s.reads ≤ tree.size ∧ s.assigns ≤ tree.size) ∧
        (d.isVariable = false → s.reads = 0 ∧ s.assigns = 0)) ∧
      (a.unusedVariables tree).Pairwise (· < ·) ∧
      ∀ id, id ∈ a.unusedVariables tree ↔
        (∃ name, tree.kind? id = some (.definition (.var name))) ∧
        (∃ b stmts table, tree.kind? b = some (.block stmts table) ∧ a.isVisited b = true ∧
          id ∈ table.entries.map Prod.snd) ∧
        ∀ n, a.isVisited n = true → ¬ Counter.reads.Hits tree n id := by
  have hTree := parse_wellFormed h
  obtain ⟨a, fresh, hRun, hWalked⟩ := analyze_walked hTree options
  have hWhole : Whole tree options fresh a := ⟨hTree, hWalked⟩
  refine ⟨a, hRun, fun id d hk => ?_, unusedVariables_pairwise tree a,
    hWhole.mem_unused_iff hSize (parse_composed h) hRun⟩
  obtain ⟨s, hs, -⟩ := hWhole.exists_state hk
  have hReads : Counter.reads.valueAt a id = s.reads := Counter.valueAt_of_state? hs
  have hAssigns : Counter.assigns.valueAt a id = s.assigns := Counter.valueAt_of_state? hs
  refine ⟨s, hs, fun hd => ?_, fun hd => ?_⟩
  · rw [← Tree.isVariable_of_kind? hk] at hd
    obtain ⟨hRead, hReadLe⟩ := hWhole.valueAt_eq hSize hRun Counter.reads hd
    obtain ⟨hAssign, hAssignLe⟩ := hWhole.valueAt_eq hSize hRun Counter.assigns hd
    rw [hReads] at hRead hReadLe
    rw [hAssigns] at hAssign hAssignLe
    exact ⟨hRead, hAssign, hReadLe, hAssignLe⟩
  · rw [← Tree.isVariable_of_kind? hk] at hd
    rw [← hReads, ← hAssigns]
    exact ⟨hWhole.valueAt_eq_zero hRun _ hd, hWhole.valueAt_eq_zero hRun _ hd⟩

/-- A variable that is read twice and assigned twice, one that is never read, and one in a block
that is not visited. -/
theorem analyze_counts_uses_go : ∃ tokens tree a s,
    tokenize "let x = 1; let y; @go \x7b x = x + x; \x7d sub g \x7b let z = x; \x7d" "a" =
      .ok tokens ∧
    parse tokens "a" Host.empty = .ok tree ∧ analyze tree ⟨["go"], false⟩ = .ok a ∧
    tree.kind? 0 = some (.definition (.var "x")) ∧ a.state? 0 = some s ∧
    {n | a.isVisited n = true ∧ Counter.reads.Hits tree n 0}.encard = 2 ∧
    {n | a.isVisited n = true ∧ Counter.assigns.Hits tree n 0}.encard = 2 ∧
    a.unusedVariables tree = [3] ∧
    ∀ n, a.isVisited n = true → ¬ Counter.reads.Hits tree n 3 := by
  have hRun : (do
      let tokens ←
        tokenize "let x = 1; let y; @go \x7b x = x + x; \x7d sub g \x7b let z = x; \x7d" "a"
      let tree ← parse tokens "a" Host.empty
      let a ← analyze tree ⟨["go"], false⟩
      pure (tree.size, tree.kind? 0, a.state? 0, a.unusedVariables tree)) =
        Except.ok (17, some (.definition (.var "x")), some ⟨false, .any, 2, 2⟩, [3]) := by
    cbv
  obtain ⟨tokens, hTokens, hRun⟩ := exists_of_bind_eq_ok hRun
  obtain ⟨tree, hTree, hRun⟩ := exists_of_bind_eq_ok hRun
  obtain ⟨a, ha, hRun⟩ := exists_of_bind_eq_ok hRun
  obtain ⟨hSize, hRun⟩ := Prod.mk.inj (Except.ok.inj hRun)
  obtain ⟨hKind, hRun⟩ := Prod.mk.inj hRun
  obtain ⟨hState, hUnused⟩ := Prod.mk.inj hRun
  obtain ⟨b, hb, hCounts, -, hMem⟩ :=
    analyze_counts_uses hTree (by rw [hSize]; decide) ⟨["go"], false⟩
  obtain rfl : a = b := Except.ok.inj (ha.symm.trans hb)
  obtain ⟨s, hs, hVar, -⟩ := hCounts 0 _ hKind
  rw [hState] at hs
  cases hs
  obtain ⟨hReads, hAssigns, -⟩ := hVar rfl
  have hListed : 3 ∈ a.unusedVariables tree := by
    rw [hUnused]
    exact List.mem_cons_self
  exact ⟨tokens, tree, a, _, hTokens, hTree, ha, hKind, hState, hReads.symm, hAssigns.symm, hUnused,
    ((hMem 3).mp hListed).2.2⟩

end StageScript

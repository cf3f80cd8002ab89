import StageScript.Proofs.Tree.Owner
import StageScript.Scope.Chain

/-!
# Places

Where a node stands decides what its names mean and what it is allowed to be: the blocks
around it, the callable around it, and whether a loop of that callable is around it.  A
block of statements sees its own table first.  The body of a callable stands where the
callable is declared, not where it is called.

In a well-formed tree every node has exactly one place (`Tree.WellFormed.exists_place`,
`Stands.unique`), and every table that a node sees belongs to a block around it
(`Stands.block_of_suffix`).
-/

namespace StageScript

structure Place where
  /-- The tables of the blocks around, the innermost first. -/
  chain : Chain
  /-- The innermost callable around. -/
  callable : Option Definition
  /-- Whether a loop of that callable is around. -/
  looped : Bool

def NodeKind.loopBody? : NodeKind → Option NodeId
  | loop body => some body
  | times _ body => some body
  | whileLoop _ body => some body
  | ascent _ body => some body
  | descent _ body => some body
  | _ => none

namespace Place

def outermost : Place := ⟨[], none, false⟩

def inside (place : Place) (table : NameTable) : Place :=
  { place with chain := table :: place.chain }

/-- The place of the part `c` of a node that stands at `place`. -/
def part (place : Place) (k : NodeKind) (c : NodeId) : Place :=
  match k with
  | .block _ table => place.inside table
  | .definition d => { place with callable := some d, looped := false }
  | k => if k.loopBody? = some c then { place with looped := true } else place

/-- The tables that the parts of a node see. -/
theorem part_chain (place : Place) (k : NodeKind) (c : NodeId) :
    (∃ stmts table, k = .block stmts table ∧ (place.part k c).chain = table :: place.chain) ∨
      (place.part k c).chain = place.chain := by
  unfold part
  split
  · exact Or.inl ⟨_, _, rfl, rfl⟩
  · exact Or.inr rfl
  · split <;> exact Or.inr rfl

theorem part_chain_of_ne_block (place : Place) {k : NodeKind}
    (hk : ∀ stmts table, k ≠ .block stmts table) (c : NodeId) :
    (place.part k c).chain = place.chain := by
  rcases place.part_chain k c with ⟨stmts, table, rfl, -⟩ | h
  · exact absurd rfl (hk stmts table)
  · exact h

/-- The callable around the parts of a node. -/
theorem part_callable (place : Place) (k : NodeKind) (c : NodeId) :
    (∃ d, k = .definition d ∧ (place.part k c).callable = some d) ∨
      (place.part k c).callable = place.callable := by
  unfold part
  split
  · exact Or.inr rfl
  · exact Or.inl ⟨_, rfl, rfl⟩
  · split <;> exact Or.inr rfl

end Place

/-- Where the nodes of a tree stand. -/
inductive Stands (t : Tree) : Place → NodeId → Prop
  | root : Stands t Place.outermost t.root
  /-- A part stands where its node does, or inside it. -/
  | part {place : Place} {n c : NodeId} {k : NodeKind} : Stands t place n → t.kind? n = some k →
      c ∈ k.children → Stands t (place.part k c) c
  /-- A definition stands in the block that declares it. -/
  | entry {place : Place} {b d : NodeId} {stmts : List NodeId} {table : NameTable} :
      Stands t place b → t.kind? b = some (.block stmts table) →
      d ∈ table.entries.map Prod.snd → Stands t (place.inside table) d

namespace Stands

variable {t : Tree} {place : Place} {id : NodeId}

theorem lt_size (h : t.WellFormed) (hs : Stands t place id) : id < t.size := by
  cases hs with
  | root => exact h.root_last ▸ Nat.lt_succ_self _
  | part _ hk hc => exact Nat.lt_trans (h.child_lt hk hc) (Tree.lt_size_of_kind? hk)
  | entry _ hk hd => exact Nat.lt_trans (h.entry_lt hk hd) (Tree.lt_size_of_kind? hk)

/-- Every table that a node sees is that of a block around it. -/
theorem block_of_suffix {table : NameTable} {outer : Chain} (hs : Stands t place id)
    (hc : table :: outer <:+ place.chain) :
    ∃ q b stmts, Stands t q b ∧ t.kind? b = some (.block stmts table) ∧ q.chain = outer := by
  induction hs with
  | root => simp [Place.outermost] at hc
  | @part place n c k hn hk hm ih =>
    rcases place.part_chain k c with ⟨stmts, own, rfl, hChain⟩ | hChain
    · rw [hChain, List.suffix_cons_iff] at hc
      rcases hc with he | hc
      · cases he
        exact ⟨place, n, stmts, hn, hk, rfl⟩
      · exact ih hc
    · exact ih (hChain ▸ hc)
  | @entry place b d stmts own hb hk hm ih =>
    rw [Place.inside, List.suffix_cons_iff] at hc
    rcases hc with he | hc
    · cases he
      exact ⟨place, b, stmts, hb, hk, rfl⟩
    · exact ih hc

/-- Only the root sees no table. -/
theorem eq_root (h : t.WellFormed) (hs : Stands t place id) (hc : place.chain = []) :
    id = t.root := by
  induction hs with
  | root => rfl
  | @part place n c k hn hk hm ih =>
    rcases place.part_chain k c with ⟨stmts, own, rfl, hChain⟩ | hChain
    · rw [hChain] at hc
      cases hc
    · obtain rfl := ih (hChain ▸ hc)
      obtain ⟨stmts, table, hr⟩ := h.root_block
      rw [hr] at hk
      cases hk
      cases hc
  | entry _ _ _ _ => cases hc

/-- A statement that is a definition stands where the table has it. -/
theorem part_eq_inside (h : t.WellFormed) {place q : Place} {n b c : NodeId} {k : NodeKind}
    {stmts : List NodeId} {table : NameTable} (hk : t.kind? n = some k) (hc : c ∈ k.children)
    (hb : t.kind? b = some (.block stmts table)) (he : c ∈ table.entries.map Prod.snd)
    (hq : n = b → place = q) : place.part k c = q.inside table := by
  obtain ⟨d, hd⟩ := h.entry_definition hb he
  have hEntry := h.child_entry hk hc hd
  obtain rfl := h.entry_unique hk hb hEntry he
  rw [hk] at hb
  cases hb
  rw [hq rfl]
  rfl

/-- A node stands at one place only. -/
theorem unique (h : t.WellFormed) (hs : Stands t place id) :
    ∀ {q}, Stands t q id → place = q := by
  induction hs with
  | root =>
    intro q hq
    generalize hr : t.root = r at hq
    cases hq with
    | root => rfl
    | part _ hk hc => exact absurd (hr ▸ h.child_lt_root hk hc) (Nat.lt_irrefl _)
    | entry _ hk hd => exact absurd (hr ▸ h.entry_lt_root hk hd) (Nat.lt_irrefl _)
  | @part place n c k hn hk hc ih =>
    intro q hq
    cases hq with
    | root => exact absurd (h.child_lt_root hk hc) (Nat.lt_irrefl _)
    | part hm hl hd =>
      obtain rfl := h.part_unique hk hl hc hd
      rw [hk] at hl
      cases hl
      rw [ih hm]
    | entry hb hl hd => exact part_eq_inside h hk hc hl hd fun he => ih (he ▸ hb)
  | @entry place b d stmts table hb hk hd ih =>
    intro q hq
    cases hq with
    | root => exact absurd (h.entry_lt_root hk hd) (Nat.lt_irrefl _)
    | part hm hl hc =>
      exact (part_eq_inside h hl hc hk hd fun he => (ih (he ▸ hm)).symm).symm
    | entry hm hl he =>
      obtain rfl := h.entry_unique hk hl hd he
      rw [hk] at hl
      cases hl
      rw [ih hm]

end Stands

namespace Tree.WellFormed

variable {t : Tree}

/-- Every node stands somewhere. -/
theorem exists_place (h : t.WellFormed) {id : NodeId} (hid : id < t.size) :
    ∃ place, Stands t place id := by
  -- On the distance to the root, which comes last: owners are nearer to it.
  obtain ⟨n, hn⟩ : ∃ n : Nat, t.root ≤ id + n := ⟨t.root, Nat.le_add_left _ _⟩
  induction n generalizing id with
  | zero =>
    have he : id = t.root := Nat.le_antisymm (h.le_root_of_lt hid) hn
    rw [he]
    exact ⟨_, .root⟩
  | succ n ih =>
    have hUp : ∀ {i : NodeId} {k : NodeKind}, t.kind? i = some k → id < i →
        ∃ place, Stands t place i := by
      intro i k hk hlt
      refine ih (lt_size_of_kind? hk) (Nat.le_trans hn ?_)
      rw [Nat.add_succ, ← Nat.succ_add]
      exact Nat.add_le_add_right hlt n
    by_cases hr : id = t.root
    · rw [hr]
      exact ⟨_, .root⟩
    · obtain ⟨k, hk⟩ := exists_kind?_of_lt hid
      by_cases hd : k.isDefinition = false
      · obtain ⟨i, l, hl, hc⟩ := h.exists_part_of hk hd hr
        obtain ⟨place, hs⟩ := hUp hl (h.child_lt hl hc)
        exact ⟨_, .part hs hl hc⟩
      · obtain ⟨d, rfl⟩ : ∃ d, k = .definition d := by
          cases k <;> simp_all [NodeKind.isDefinition]
        obtain ⟨i, l, hl, hc⟩ := h.exists_entry_of hk
        obtain ⟨place, hs⟩ := hUp hl (h.entry_lt hl hc)
        cases l with
        | block stmts table => exact ⟨_, .entry hs hl hc⟩
        | _ => simp [NodeKind.entries] at hc

end Tree.WellFormed

/-! ### Names -/

namespace Chain

theorem find?_eq_declaring? (chain : Chain) (name : String) :
    chain.find? name = (chain.declaring? name).map Prod.snd := by
  induction chain with
  | nil => rfl
  | cons table outer ih =>
    rw [Chain.find?, List.findSome?_cons, declaring?]
    cases table.find? name with
    | some id => rfl
    | none => exact ih

theorem find?_eq_none_iff {chain : Chain} {name : String} :
    chain.find? name = none ↔ ∀ table ∈ chain, table.find? name = none := by
  rw [Chain.find?, List.findSome?_eq_none_iff]

/-- A name is declared by one of the tables. -/
theorem declaring?_suffix {chain declared : Chain} {name : String} {id : NodeId}
    (h : chain.declaring? name = some (declared, id)) :
    ∃ table outer, declared = table :: outer ∧ declared <:+ chain ∧ table.find? name = some id := by
  induction chain with
  | nil => cases h
  | cons table outer ih =>
    rw [declaring?] at h
    cases hf : table.find? name with
    | some i =>
      rw [hf] at h
      cases h
      exact ⟨table, outer, rfl, List.suffix_refl _, hf⟩
    | none =>
      rw [hf] at h
      obtain ⟨own, rest, hd, hs, hi⟩ := ih h
      exact ⟨own, rest, hd, hs.trans (List.suffix_cons _ _), hi⟩

end Chain

theorem NameTable.mem_of_find? {table : NameTable} {name : String} {id : NodeId}
    (h : table.find? name = some id) : (name, id) ∈ table.entries := by
  obtain ⟨before, after, he, -⟩ := List.lookup_eq_some_iff.mp h
  simp [he]

/-- What a name stands for stands in the block that declares it. -/
theorem Stands.declaring? {t : Tree} {place : Place} {n : NodeId} (hs : Stands t place n)
    {name : String} {declared : Chain} {id : NodeId}
    (hd : place.chain.declaring? name = some (declared, id)) :
    ∃ q, Stands t q id ∧ q.chain = declared := by
  obtain ⟨table, outer, rfl, hSuffix, hf⟩ := Chain.declaring?_suffix hd
  obtain ⟨q, b, stmts, hq, hk, rfl⟩ := hs.block_of_suffix hSuffix
  have hMem : id ∈ table.entries.map Prod.snd :=
    List.mem_map.mpr ⟨_, NameTable.mem_of_find? hf, rfl⟩
  exact ⟨q.inside table, .entry hq hk hMem, rfl⟩

/-- The same of the tables inside a block. -/
theorem Stands.declaring?_inside {t : Tree} {place : Place} {b : NodeId} (hs : Stands t place b)
    {stmts : List NodeId} {table : NameTable} (hk : t.kind? b = some (.block stmts table))
    {name : String} {declared : Chain} {id : NodeId}
    (hd : Chain.declaring? (table :: place.chain) name = some (declared, id)) :
    ∃ q, Stands t q id ∧ q.chain = declared := by
  rw [Chain.declaring?] at hd
  cases hf : table.find? name with
  | none =>
    rw [hf] at hd
    exact hs.declaring? hd
  | some i =>
    rw [hf] at hd
    cases hd
    have hMem : id ∈ table.entries.map Prod.snd :=
      List.mem_map.mpr ⟨_, NameTable.mem_of_find? hf, rfl⟩
    exact ⟨place.inside table, .entry hs hk hMem, rfl⟩

/-- What a name stands for is a definition. -/
theorem Stands.find?_definition {t : Tree} (h : t.WellFormed) {place : Place} {n : NodeId}
    (hs : Stands t place n) {name : String} {id : NodeId}
    (hf : place.chain.find? name = some id) : ∃ d, t.kind? id = some (.definition d) := by
  rw [Chain.find?_eq_declaring?, Option.map_eq_some_iff] at hf
  obtain ⟨⟨declared, i⟩, hd, rfl⟩ := hf
  obtain ⟨table, outer, rfl, hSuffix, hfind⟩ := Chain.declaring?_suffix hd
  obtain ⟨q, b, stmts, -, hk, -⟩ := hs.block_of_suffix hSuffix
  exact h.entry_definition hk (List.mem_map.mpr ⟨_, NameTable.mem_of_find? hfind, rfl⟩)

end StageScript

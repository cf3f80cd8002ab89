import StageScript.Proofs.Moved.Strip

/-!
# Parsers of neighbours that change places

The parser of the first list and the parser of the second list go side by side (`Swap.twin`) up to
the neighbours.  There each of the two meets both of them, in one order or in the other.  What one
parser makes of a neighbour is what the other makes of it (`Strip.Meet.follow`), so that behind them
the parsers are side by side again, with some numbers exchanged (`Swap.Crossed.abreast`).
-/

set_option synthInstance.maxSize 4000

namespace StageScript

open Parse

/-! ### Numbers that change places -/

/-- From `s` on, the first `a` numbers change places with the next `b`. -/
def exchange (s a b : Nat) : Equiv.Perm Nat where
  toFun x :=
    if x < s then x else if x < s + a then x + b else if x < s + a + b then x - a else x
  invFun y :=
    if y < s then y else if y < s + b then y + a else if y < s + a + b then y - b else y
  left_inv x := by
    simp only
    split_ifs <;> omega
  right_inv y := by
    simp only
    split_ifs <;> omega

theorem exchange_apply (s a b x : Nat) : exchange s a b x =
    if x < s then x else if x < s + a then x + b else if x < s + a + b then x - a else x :=
  rfl

/-- What is left alone from `s` on stays below `s`. -/
theorem lt_of_fixed {f : Equiv.Perm Nat} {s x : Nat} (h : ∀ y, s ≤ y → f y = y) (hx : x < s) :
    f x < s := by
  refine Nat.lt_of_not_le fun hGe => ?_
  have hEq : f x = x := f.injective (h _ hGe)
  omega

/-- The numbers before an exchange, and those that take part in it. -/
theorem exchange_iff {f : Equiv.Perm Nat} {m a b x y : Nat} (hf : ∀ z, m ≤ z → f z = z) :
    (x < m ∧ y = f x ∨ (∃ i < a, x = m + i ∧ y = m + b + i) ∨
      ∃ i < b, x = m + a + i ∧ y = m + i) ↔
    x < m + a + b ∧ y = f.trans (exchange m a b) x := by
  rw [Equiv.trans_apply, exchange_apply]
  rcases Nat.lt_or_ge x m with hx | hx
  · have hfx := lt_of_fixed hf hx
    rw [if_pos hfx]
    constructor
    · rintro (⟨-, rfl⟩ | ⟨i, -, rfl, -⟩ | ⟨i, -, rfl, -⟩)
      · exact ⟨by omega, rfl⟩
      · omega
      · omega
    · exact fun h => .inl ⟨hx, h.2⟩
  · rw [hf x hx]
    constructor
    · rintro (⟨hLess, -⟩ | ⟨i, hi, rfl, rfl⟩ | ⟨i, hi, rfl, rfl⟩)
      · omega
      · exact ⟨by omega, by split_ifs <;> omega⟩
      · exact ⟨by omega, by split_ifs <;> omega⟩
    · rintro ⟨hLess, hy⟩
      right
      rcases Nat.lt_or_ge x (m + a) with hFirst | hSecond
      · exact .inl ⟨x - m, by omega, by omega, by split_ifs at hy <;> omega⟩
      · exact .inr ⟨x - (m + a), by omega, by omega, by split_ifs at hy <;> omega⟩

theorem Tree.Linked.or {exact : Prop} {ρ σ : NodeId → NodeId → Prop} {t u : Tree}
    (h : t.Linked exact ρ u) (hs : t.Linked exact σ u) :
    t.Linked exact (fun x y => ρ x y ∨ σ x y) u := by
  rintro x y (hxy | hxy)
  · obtain ⟨n, m, hn, hm, hAlike, hSpan⟩ := h x y hxy
    exact ⟨n, m, hn, hm, hAlike.mono fun _ _ => .inl, hSpan⟩
  · obtain ⟨n, m, hn, hm, hAlike, hSpan⟩ := hs x y hxy
    exact ⟨n, m, hn, hm, hAlike.mono fun _ _ => .inr, hSpan⟩

theorem NameTable.Alike.of_perm {ρ : NodeId → NodeId → Prop} {t u v : NameTable}
    (h : t.Alike False ρ u) (hPerm : u.entries.Perm v.entries) : t.Alike False ρ v := by
  obtain ⟨es, hes, hSame, -⟩ := h
  exact ⟨es, hes, hSame.trans hPerm, False.elim⟩

theorem Onward.outer_le {p q : Parser} (h : Onward p q) : q.outer.length ≤ p.outer.length :=
  (congrArg List.length h.outer).le

/-! ### Neighbours in both lists -/

theorem tokenAt?_of_lt {ts : List Token} (us vs : List Token) {i : Nat} (hi : i < ts.length) :
    tokenAt? (ts ++ us).toArray i = tokenAt? (ts ++ vs).toArray i := by
  have hMin : ∀ ws : List Token, tokenAt? (ts ++ ws).toArray i = ts[i]? := by
    intro ws
    rw [tokenAt?, List.size_toArray, List.length_append, Nat.min_eq_left (by omega),
      List.getElem?_toArray, List.getElem?_append_left hi]
  rw [hMin, hMin]

theorem tokenAt?_of_ge {ts us vs : List Token} {i : Nat} (hi : ts.length ≤ i)
    (hLength : ts.length = us.length) (hne : vs ≠ []) :
    tokenAt? (ts ++ vs).toArray i = tokenAt? (us ++ vs).toArray i := by
  have hPos : 0 < vs.length := List.length_pos_iff.mpr hne
  simp only [tokenAt?, List.size_toArray, List.length_append, List.getElem?_toArray]
  rw [List.getElem?_append_right (by omega), List.getElem?_append_right (by omega), hLength]

namespace Swap

variable (S : Swap)

theorem behind_ne : S.behind ≠ [] := by
  obtain ⟨front, last, hBehind, -⟩ := S.ended
  rw [hBehind]
  simp

theorem length_pos : 0 < S.first.length + S.second.length := by
  rcases S.callable with h | h
  · have hPos := List.length_pos_iff.mpr h.ne_nil
    omega
  · have hPos := List.length_pos_iff.mpr h.ne_nil
    omega

/-- Behind the second neighbour, the first one begins anew or what is behind both. -/
theorem anew_first : Anew (S.first ++ S.behind) := by
  have hStart := S.start.anew
  rw [List.append_assoc] at hStart
  exact hStart.append S.finish.anew

theorem anew_second : Anew (S.second ++ S.first ++ S.behind) := by
  rw [List.append_assoc]
  exact S.middle.anew.append S.anew_first

def firstStrip : Strip where
  text := S.first
  before := S.before
  behind := S.second ++ S.behind
  otherBefore := S.before ++ S.second
  otherBehind := S.behind
  matched := S.matched_first
  plain t ht := S.plain t (List.mem_append_left _ ht)
  finish := S.middle
  ended := by
    obtain ⟨front, last, hBehind, hLast⟩ := S.ended
    exact ⟨S.second ++ front, last, by rw [hBehind, List.append_assoc], hLast⟩
  anew := S.finish.anew
  otherBehind_ne := S.behind_ne

def secondStrip : Strip where
  text := S.second
  before := S.before ++ S.first
  behind := S.behind
  otherBefore := S.before
  otherBehind := S.first ++ S.behind
  matched := S.matched_second
  plain t ht := S.plain t (List.mem_append_right _ ht)
  finish := S.finish
  ended := S.ended
  anew := S.anew_first
  otherBehind_ne := List.append_ne_nil_of_right_ne_nil _ S.behind_ne

theorem firstStrip_left : S.firstStrip.left = S.left := by
  simp [firstStrip, Strip.left, left]

theorem secondStrip_right : S.secondStrip.right = S.right := by
  simp [secondStrip, Strip.right, right]

theorem left_eq : S.left = S.before ++ (S.first ++ S.second ++ S.behind) := by
  simp [left]

theorem right_eq : S.right = S.before ++ (S.second ++ S.first ++ S.behind) := by
  simp [right]

theorem length_right : S.right.length = S.left.length := by
  simp only [right, left, List.length_append]
  omega

def twin : Twin where
  left := S.left.toArray
  right := S.right.toArray
  exact := False
  meets i j := j = i ∧
    (i ≤ S.before.length ∨ S.before.length + S.first.length + S.second.length ≤ i)
  near i j := i = S.before.length ∧ j = S.before.length
  rounds i _ n m := m = n ∧ (S.left.length - i < n ∨ S.left.length ≤ i)
  fits ρ m n := n = m ∧ ∃ f : Equiv.Perm Nat, (∀ x, m ≤ x → f x = x) ∧
    ∀ x y, ρ x y ↔ x < m ∧ y = f x
  leftNames := []
  rightNames := []
  leftOuter := []
  rightOuter := []
  tokens_eq := False.elim
  pos_eq := False.elim
  names_eq := False.elim
  not_exact _ := id
  ended _ := by
    obtain ⟨front, last, hBehind, hLast⟩ := S.ended
    refine ⟨S.before ++ S.first ++ S.second ++ front, last, ?_, hLast⟩
    simp [left, hBehind]
  size_iff := by
    rintro i j ⟨rfl, -⟩
    rw [List.size_toArray, List.size_toArray, length_right]
  token_eq := by
    rintro i j ⟨rfl, hi⟩ hNear
    rcases hi with hi | hi
    · have hLess : j < S.before.length := by omega
      rw [S.left_eq, S.right_eq]
      exact tokenAt?_of_lt _ _ hLess
    · have hGe : (S.before ++ S.second ++ S.first).length ≤ j := by
        simp only [List.length_append]
        omega
      exact tokenAt?_of_ge hGe (by simp; omega) S.behind_ne
  meets_succ := by
    rintro i j ⟨rfl, hi⟩ hNear
    exact ⟨rfl, by omega⟩
  ends_of_near := by
    rintro i j - - ⟨hi, -⟩
    rw [S.left_eq]
    exact S.start.exists_ends hi
  not_resumes := by
    rintro i j ⟨rfl, rfl⟩
    have hLeft := tokenAt?_length S.before
      (List.append_ne_nil_of_right_ne_nil (S.first ++ S.second) S.behind_ne)
    have hRight := tokenAt?_length S.before
      (List.append_ne_nil_of_right_ne_nil (S.second ++ S.first) S.behind_ne)
    rw [← S.left_eq] at hLeft
    rw [← S.right_eq] at hRight
    exact ⟨fun t ht => S.start.anew t (hLeft ▸ ht), fun t ht => S.anew_second t (hRight ▸ ht)⟩
  rounds_self := by
    rintro i j ⟨rfl, -⟩
    simp [length_right]
  rounds_zero := by
    rintro i j n m ⟨rfl, -⟩
    rfl
  rounds_succ := by
    rintro i j i' j' n m ⟨hmn, hn⟩ hi - -
    omega
  fits_push := by
    rintro ρ m n ⟨rfl, f, hf, hρ⟩
    refine ⟨rfl, f, fun x hx => hf x (Nat.le_of_succ_le hx), fun x y => ?_⟩
    show ρ x y ∨ _ ↔ _
    rw [hρ]
    constructor
    · rintro (⟨hx, rfl⟩ | ⟨rfl, rfl⟩)
      · exact ⟨Nat.lt_succ_of_lt hx, rfl⟩
      · exact ⟨Nat.lt_succ_self _, (hf _ (Nat.le_refl _)).symm⟩
    · rintro ⟨hx, rfl⟩
      rcases Nat.lt_succ_iff_lt_or_eq.mp hx with hLess | rfl
      · exact .inl ⟨hLess, rfl⟩
      · exact .inr ⟨rfl, hf _ (Nat.le_refl _)⟩

variable {S}

/-! ### Past the neighbours -/

/-- The parsers have passed the neighbours: the left one came from `p` by `p₁` to `p₂`, the right
one from `q` by `q₁` to `q₂`. -/
structure Crossed (S : Swap) (p p₁ p₂ q q₁ q₂ : Parser) (xs₁ xs₂ ys₁ ys₂ : List NodeId) : Prop where
  first : (S.firstStrip.twin p q₁).Abreast none False [(xs₁, ys₁)] p₁ q₂
  second : (S.secondStrip.twin p₁ q).Abreast none False [(xs₂, ys₂)] p₂ q₁
  left₁ : Onward p p₁
  left₂ : Onward p₁ p₂
  right₁ : Onward q q₁
  right₂ : Onward q₁ q₂
  pos₁ : p₁.pos = S.before.length + S.first.length
  pos₂ : p₂.pos = S.before.length + S.first.length + S.second.length
  empty : xs₁ = [] ∨ xs₂ = []

/-- The numbers of the neighbours change places. -/
theorem fits_exchange {ρ ρ₁ ρ₂ : NodeId → NodeId → Prop} {m a b : Nat} (h : S.twin.fits ρ m m)
    (h₁ : ∀ x y, ρ₁ x y ↔ ∃ i < a, x = m + i ∧ y = m + b + i)
    (h₂ : ∀ x y, ρ₂ x y ↔ ∃ i < b, x = m + a + i ∧ y = m + i) :
    S.twin.fits (fun x y => ρ x y ∨ ρ₁ x y ∨ ρ₂ x y) (m + a + b) (m + b + a) := by
  obtain ⟨-, f, hf, hρ⟩ := h
  refine ⟨by omega, f.trans (exchange m a b), fun x hx => ?_, fun x y => ?_⟩
  · rw [Equiv.trans_apply, hf x (by omega), exchange_apply]
    split_ifs <;> omega
  · show ρ x y ∨ ρ₁ x y ∨ ρ₂ x y ↔ _
    rw [hρ, h₁, h₂]
    exact exchange_iff hf

namespace Crossed

variable {p p₁ p₂ q q₁ q₂ : Parser} {xs₁ xs₂ ys₁ ys₂ : List NodeId} {links : Links}

/-- Both parsers have declared what the neighbours declare. -/
theorem chains (h : S.Crossed p p₁ p₂ q q₁ q₂ xs₁ xs₂ ys₁ ys₂) {ρ ρ₁ ρ₂ : NodeId → NodeId → Prop}
    (hChains : S.twin.Chains ρ (p.table :: p.outer) (q.table :: q.outer))
    (hFirst : (S.firstStrip.twin p q₁).Chains ρ₁ (p₁.table :: p₁.outer) (q₂.table :: q₂.outer))
    (hSecond : (S.secondStrip.twin p₁ q).Chains ρ₂ (p₂.table :: p₂.outer) (q₁.table :: q₁.outer)) :
    S.twin.Chains (fun x y => ρ x y ∨ ρ₁ x y ∨ ρ₂ x y) (p₂.table :: p₂.outer)
      (q₂.table :: q₂.outer) := by
  obtain ⟨es₁, fs₁, hes₁, hfs₁, hAlike₁⟩ := hFirst.base_of_le h.left₁.outer_le
  obtain ⟨es₂, fs₂, hes₂, hfs₂, hAlike₂⟩ := hSecond.base_of_le h.left₂.outer_le
  have hAlike : (⟨es₁ ++ es₂⟩ : NameTable).Alike False
      (fun x y => ρ x y ∨ ρ₁ x y ∨ ρ₂ x y) ⟨fs₂ ++ fs₁⟩ :=
    ((hAlike₁.mono fun _ _ h => .inr (.inl h)).append
      (hAlike₂.mono fun _ _ h => .inr (.inr h))).of_perm List.perm_append_comm
  have hLeft : p₂.table = ⟨p.table.entries ++ (es₁ ++ es₂)⟩ := by
    rw [hes₂]
    simp [Strip.twin, hes₁]
  have hRight : q₂.table = ⟨q.table.entries ++ (fs₂ ++ fs₁)⟩ := by
    rw [hfs₁]
    simp [Strip.twin, hfs₂]
  have hNodup := hSecond.nodup
  rw [hLeft] at hNodup
  rw [hLeft, hRight, h.left₂.outer, h.left₁.outer, h.right₂.outer, h.right₁.outer]
  exact (hChains.mono fun _ _ => .inl).extend hAlike hNodup

theorem abreast (h : S.Crossed p p₁ p₂ q q₁ q₂ xs₁ xs₂ ys₁ ys₂)
    (hpq : S.twin.Abreast none False links p q) :
    S.twin.Abreast none False ((xs₁ ++ xs₂, ys₂ ++ ys₁) :: links) p₂ q₂ where
  left := h.second.left
  right := h.first.right
  file := by rw [h.first.file, h.left₂.file]
  grammar := by rw [h.first.grammar, h.left₂.grammar]
  nesting := by rw [h.first.nesting, h.left₂.nesting]
  meets := by
    obtain ⟨k, hk, hp, hq⟩ := h.first.meets
    have hPos : p₁.pos = S.before.length + k := hp
    have hPos' : q₂.pos = (S.before ++ S.second).length + k := hq
    rw [List.length_append] at hPos'
    have h₁ := h.pos₁
    have h₂ := h.pos₂
    exact ⟨by omega, by omega⟩
  clear := False.elim
  opens := h.second.opens
  nodes := by
    obtain ⟨ρ, hFits, hLinked, hHold, hChains⟩ := hpq.nodes
    obtain ⟨ρ₁, ⟨a, hp₁, hq₂, hρ₁⟩, hLinked₁, hHold₁, hChains₁⟩ := h.first.nodes
    obtain ⟨ρ₂, ⟨b, hp₂, hq₁, hρ₂⟩, hLinked₂, hHold₂, hChains₂⟩ := h.second.nodes
    have hSize : q.tree.size = p.tree.size := hFits.1
    rw [hSize] at hFits hq₁
    refine ⟨fun x y => ρ x y ∨ ρ₁ x y ∨ ρ₂ x y, ?_, ?_, ?_, ?_⟩
    · rw [hp₂, hp₁, hq₂, hq₁]
      refine fits_exchange hFits (fun x y => ?_) fun x y => ?_
      · rw [hρ₁, hq₁]
      · rw [hρ₂, hp₁, hSize]
    · have hOld := hLinked.grow (h.left₁.trans h.left₂).tree (h.right₁.trans h.right₂).tree
      have hFirst := hLinked₁.grow h.left₂.tree (.refl _)
      have hSecond := hLinked₂.grow (.refl _) h.right₂.tree
      exact hOld.or (hFirst.or hSecond)
    · refine .cons ?_ fun l hl => (hHold l hl).imp fun _ _ => .inl
      have hFirst : xs₁.Forall₂ ρ₁ ys₁ := hHold₁.list
      have hSecond : xs₂.Forall₂ ρ₂ ys₂ := hHold₂.list
      rcases h.empty with rfl | rfl
      · cases hFirst
        simpa using hSecond.imp fun _ _ h => Or.inr (.inr h)
      · cases hSecond
        simpa using hFirst.imp fun _ _ h => Or.inr (.inl h)
    · exact h.chains hChains hChains₁ hChains₂

end Crossed

/-! ### Names -/

section Names

variable {p p₁ p₂ q q₁ r : Parser} {xs₂ ys₂ : List NodeId} {links : Links} {name : String}

/-- Names that were declared before are not declared anew. -/
theorem notMem_drop (h : Onward p r) (hNodup : (r.table.entries.map Prod.fst).Nodup)
    (hName : name ∈ p.table.entries.map Prod.fst) :
    name ∉ (r.table.entries.drop p.table.entries.length).map Prod.fst := by
  obtain ⟨es, hes⟩ := h.table
  rw [← hes, List.map_append] at hNodup
  rw [← hes, List.drop_left]
  exact List.disjoint_of_nodup_append hNodup hName

theorem names_subset (h : S.twin.Abreast none False links p q)
    (hName : name ∈ q.table.entries.map Prod.fst) : name ∈ p.table.entries.map Prod.fst := by
  obtain ⟨ρ, -, -, -, hChains⟩ := h.nodes
  by_contra hNot
  have hRight := (hChains.mem_right hName hNot).1
  cases hRight

/-- The right parser holds no name that the left one declares in the strip. -/
theorem not_lost {T : Strip} (h : Onward p r)
    (hNames : ∀ name ∈ q.table.entries.map Prod.fst,
      name ∉ (r.table.entries.drop p.table.entries.length).map Prod.fst) (d : Diagnostic) :
    ¬ (T.twin p q).Lost r d := by
  rintro ⟨name, table, -, hName, hTable, hMem⟩
  rw [Twin.table?_of_eq (congrArg List.length h.outer)] at hTable
  cases hTable
  exact hNames name hName hMem

theorem not_lost_second (h : S.twin.Abreast none False links p q) (hp : Onward p p₁)
    (hp₁ : Onward p₁ p₂) (hNodup : (p₂.table.entries.map Prod.fst).Nodup) (d : Diagnostic) :
    ¬ (S.secondStrip.twin p₁ q).Lost p₂ d := by
  refine not_lost hp₁ (fun name hName => notMem_drop hp₁ hNodup ?_) d
  exact (hp.table.sublist.map Prod.fst).subset (names_subset h hName)

theorem not_lost_first (h : S.twin.Abreast none False links p q) (hp : Onward p p₁)
    (hp₁ : Onward p₁ p₂) (hNodup : (p₂.table.entries.map Prod.fst).Nodup)
    (hSecond : (S.secondStrip.twin p₁ q).Abreast none False [(xs₂, ys₂)] p₂ q₁) (d : Diagnostic) :
    ¬ (S.firstStrip.twin p q₁).Lost p₁ d := by
  refine not_lost hp (fun name hName => ?_) d
  obtain ⟨ρ, -, -, -, hChains⟩ := hSecond.nodes
  obtain ⟨es, fs, hes, hfs, hAlike⟩ := hChains.base_of_le hp₁.outer_le
  have hTable : q₁.table.entries = q.table.entries ++ fs := congrArg NameTable.entries hfs
  rw [hTable, List.map_append] at hName
  rcases List.mem_append.mp hName with hOld | hNew
  · have hFirst : (p₁.table.entries.map Prod.fst).Nodup :=
      hNodup.sublist (hp₁.table.sublist.map Prod.fst)
    exact notMem_drop hp hFirst (names_subset h hOld)
  · -- the second neighbour declares the name too, so that the first one cannot
    intro hMem
    have hMem' : name ∈ p₁.table.entries.map Prod.fst :=
      ((List.drop_sublist _ _).map Prod.fst).subset hMem
    refine notMem_drop hp₁ hNodup hMem' ?_
    have hTable : p₂.table.entries = p₁.table.entries ++ es := congrArg NameTable.entries hes
    rw [hTable, List.drop_left]
    exact hAlike.mem_names.mp hNew

end Names

/-! ### Side by side again -/

section Meeting

variable {p p₁ q q₁ : Parser} {links : Links}

theorem solo_first (h : S.twin.Abreast none False links p q) (hp : p.pos = S.before.length) :
    S.firstStrip.solo.Meet p p where
  left := h.left.trans (congrArg List.toArray S.firstStrip_left.symm)
  right := h.left.trans (congrArg List.toArray S.firstStrip_left.symm)
  file := rfl
  grammar := rfl
  nesting := rfl
  leftPos := hp
  rightPos := hp
  opens := by
    have hOpens := h.opens id
    rw [hp] at hOpens
    show openAt S.firstStrip.left.toArray _ = _
    rw [S.firstStrip_left]
    exact hOpens
  nodup := by
    obtain ⟨ρ, -, -, -, hChains⟩ := h.nodes
    exact hChains.nodup

theorem meet_first (h : S.twin.Abreast none False links p q) (hp : p.pos = S.before.length)
    (hq : Onward q q₁) (hPos : q₁.pos = S.before.length + S.second.length) :
    S.firstStrip.Meet p q₁ :=
  { solo_first h hp with
    right := hq.tokens.trans h.right
    file := hq.file.trans h.file
    grammar := hq.grammar.trans h.grammar
    nesting := hq.nesting.trans h.nesting
    rightPos := by rw [hPos]; exact List.length_append.symm }

theorem meet_second (h : S.twin.Abreast none False links p q) (hq : q.pos = S.before.length)
    (hp : Onward p p₁) (hPos : p₁.pos = S.before.length + S.first.length)
    (hOpens : openAt S.left.toArray p₁.pos = ⟨p₁.outer.length, none⟩)
    (hNodup : (p₁.table.entries.map Prod.fst).Nodup) : S.secondStrip.Meet p₁ q where
  left := hp.tokens.trans h.left
  right := h.right.trans (congrArg List.toArray S.secondStrip_right.symm)
  file := h.file.trans hp.file.symm
  grammar := h.grammar.trans hp.grammar.symm
  nesting := h.nesting.trans hp.nesting.symm
  leftPos := by rw [hPos]; exact List.length_append.symm
  rightPos := hq
  opens := by
    rw [hPos, ← List.length_append] at hOpens
    exact hOpens
  nodup := hNodup

end Meeting

section Bridging

variable {p q r : Parser} {links : Links} {levels : Nat} {stop : Parser → Bool}
  (hAlike : ∀ P : Twin, P.StopsAlike stop)
  (hClose : ∀ r : Parser, stop r = true → r.kind = .symbol .closeCurly)

include hAlike hClose

/-- If the left parser ends well, both pass the neighbours. -/
theorem exists_crossed (h : S.twin.Abreast none False links p q) (hp : p.pos = S.before.length)
    (hq : q.pos = S.before.length) {n : Nat} {ids : List NodeId}
    (hRun : stmts ⟨exprAt levels, blockAt levels⟩ stop n p = .ok ids r)
    (hn : S.left.length - p.pos < n) :
    ∃ p₁ p₂ q₁ q₂ xs₁ xs₂ ys₁ ys₂, S.Crossed p p₁ p₂ q q₁ q₂ xs₁ xs₂ ys₁ ys₂ ∧ ∃ k m, n = m + k ∧
      Passage ⟨exprAt levels, blockAt levels⟩ stop k p (xs₁ ++ xs₂) p₂ ∧
      Passage ⟨exprAt levels, blockAt levels⟩ stop k q (ys₂ ++ ys₁) q₂ ∧
      S.left.length - p₂.pos < m := by
  have hLength : S.firstStrip.left.length = S.left.length := congrArg List.length S.firstStrip_left
  obtain ⟨k₁, m₁, xs₁, p₁, rfl, hFirst, hm₁, hPos₁, hOpens₁, hNodup₁⟩ :=
    (solo_first h hp).exists_passage hClose hRun (hLength ▸ hn)
  have hp₁ := hFirst.onward
  rw [S.firstStrip_left] at hOpens₁
  -- the left parser goes on behind the first neighbour
  obtain ⟨more, r', hRest, -⟩ := bind_eq_ok ((hFirst.stmts_eq m₁).symm.trans hRun)
  have hMeet₂ := meet_second h hq hp₁ hPos₁ hOpens₁ hNodup₁
  obtain ⟨k₂, m, xs₂, p₂, rfl, hSecond, hm, hEnd, -, hNodup₂⟩ :=
    hMeet₂.solo.exists_passage hClose hRest (hLength ▸ hm₁)
  have hp₂ := hSecond.onward
  have hPos₂ : p₂.pos = S.before.length + S.first.length + S.second.length := by
    rw [hEnd]
    exact congrArg (· + S.second.length) List.length_append
  -- the right parser meets the second neighbour first
  obtain ⟨ys₂, q₁, hSecond', hAbreast₂⟩ :=
    (hMeet₂.follow (hAlike _) hSecond hEnd q [] hMeet₂.abreast).resolve_right
      fun ⟨d, hLost⟩ => not_lost_second h hp₁ hp₂ hNodup₂ d hLost
  have hq₁ := hSecond'.onward
  have hqPos : q₁.pos = S.before.length + S.second.length := by
    obtain ⟨k, -, hk, hk'⟩ := hAbreast₂.meets
    have hk : p₂.pos = (S.before ++ S.first).length + k := hk
    have hk' : q₁.pos = S.before.length + k := hk'
    rw [List.length_append] at hk
    omega
  have hMeet₁ := meet_first h hp hq₁ hqPos
  obtain ⟨ys₁, q₂, hFirst', hAbreast₁⟩ :=
    (hMeet₁.follow (hAlike _) hFirst hPos₁ q₁ [] hMeet₁.abreast).resolve_right
      fun ⟨d, hLost⟩ => not_lost_first h hp₁ hp₂ hNodup₂ hAbreast₂ d hLost
  have hEmpty : xs₁ = [] ∨ xs₂ = [] := by
    rcases S.callable with hText | hText
    · exact .inl (hMeet₁.eq_nil_of_callable hText hFirst hPos₁)
    · exact .inr (hMeet₂.eq_nil_of_callable hText hSecond hEnd)
  refine ⟨p₁, p₂, q₁, q₂, xs₁, xs₂, ys₁, ys₂,
    ⟨hAbreast₁, hAbreast₂, hp₁, hp₂, hq₁, hFirst'.onward, hPos₁, hPos₂, hEmpty⟩, k₂ + k₁, m,
    by omega, ?_, hSecond'.trans hFirst', hm⟩
  rw [Nat.add_comm]
  exact hFirst.trans hSecond

/-- The parsers go on side by side behind the neighbours. -/
theorem bridges (hInner : S.twin.SimInner ⟨exprAt levels, blockAt levels⟩) (depth i : Nat) :
    S.twin.Bridges ⟨exprAt levels, blockAt levels⟩ stop depth i := by
  rintro n m links p q hpq hDepth hPos ⟨hp, hq⟩ ⟨rfl, hFuel⟩
  cases hRun : stmts ⟨exprAt levels, blockAt levels⟩ stop m p with
  | fail d r => exact .idle (.inl id)
  | ok ids r =>
    have hSize : p.pos < S.left.length := by
      have hBehind := List.length_pos_iff.mpr S.behind_ne
      simp only [hp, left, List.length_append]
      omega
    obtain ⟨p₁, p₂, q₁, q₂, xs₁, xs₂, ys₁, ys₂, hCrossed, k, n, rfl, hLeft, hRight, hn⟩ :=
      exists_crossed hAlike hClose hpq hp hq hRun (by omega)
    -- behind the neighbours there is no place left where the parsers could part
    have hNone : S.twin.Bridges ⟨exprAt levels, blockAt levels⟩ stop depth
        (S.before.length + S.first.length + S.second.length) := by
      rintro n m links p q - - hPos ⟨hp, -⟩
      have hLength := S.length_pos
      omega
    have hMid := hCrossed.abreast hpq
    have hDepth₂ : p₂.outer.length = depth := by rw [hLeft.onward.outer, hDepth]
    have hRest := Twin.sim_stmts hInner (hAlike _) hNone n n _ p₂ q₂
      ⟨hMid, hDepth₂, hCrossed.pos₂.ge, rfl, .inl hn⟩
    rw [← hRun, hLeft.stmts_eq n, hRight.stmts_eq n]
    refine hRest.bind fun more more' p' q' h => .ok ?_
    exact h.relink fun ρ hρ => .cons (List.rel_append hρ.tail.list hρ.list) hρ.tail.tail

end Bridging

end Swap

end StageScript

import Mathlib.Data.List.Nodup
import StageScript.Tree.Definition

/-!
# What lies below a node

`kids` names, for every node, the nodes right below it.  When these come earlier than the
node (`Falls`), `subtree kids id` lists `id` and everything below it, each node before what
is below it.  When moreover no node is right below two others, nor twice below one
(`Branches`), no node is listed twice (`Branches.subtree_nodup`), and two subtrees are
disjoint or one is inside the other (`Branches.nested`).
-/

namespace StageScript

/-- A node and what is below it, at most `n` levels of it. -/
def below (kids : NodeId → List NodeId) : Nat → NodeId → List NodeId
  | 0, _ => []
  | n + 1, id => id :: (kids id).flatMap (below kids n)

def subtree (kids : NodeId → List NodeId) (id : NodeId) : List NodeId := below kids (id + 1) id

def Falls (kids : NodeId → List NodeId) : Prop := ∀ id, ∀ c ∈ kids id, c < id

/-- Every node is right below at most one node, and at one place there. -/
structure Branches (kids : NodeId → List NodeId) : Prop where
  falls : Falls kids
  nodup : ∀ id, (kids id).Nodup
  unique : ∀ i j c, c ∈ kids i → c ∈ kids j → i = j

namespace Falls

variable {kids : NodeId → List NodeId}

/-- As many levels as the number of the node are enough. -/
theorem below_eq (h : Falls kids) (n : Nat) : ∀ id, id < n → below kids n id = subtree kids id := by
  induction n using Nat.strongRecOn with
  | ind n ih =>
    intro id hid
    obtain ⟨m, rfl⟩ : ∃ m, n = m + 1 := ⟨n - 1, (Nat.sub_add_cancel (Nat.zero_lt_of_lt hid)).symm⟩
    rw [subtree, below, below]
    have hKids : ∀ c ∈ kids id, below kids m c = below kids id c := by
      intro c hc
      have hlt := h id c hc
      rw [ih m (Nat.lt_succ_self m) c (Nat.lt_of_lt_of_le hlt (Nat.le_of_lt_succ hid)),
        ih id hid c hlt]
    rw [List.flatMap_congr hKids]

theorem subtree_eq (h : Falls kids) (id : NodeId) :
    subtree kids id = id :: (kids id).flatMap (subtree kids) := by
  rw [subtree, below]
  rw [List.flatMap_congr fun c hc => h.below_eq id c (h id c hc)]

theorem mem_subtree_iff (h : Falls kids) {x id : NodeId} :
    x ∈ subtree kids id ↔ x = id ∨ ∃ c ∈ kids id, x ∈ subtree kids c := by
  rw [h.subtree_eq, List.mem_cons, List.mem_flatMap]

theorem self_mem (h : Falls kids) (id : NodeId) : id ∈ subtree kids id :=
  h.mem_subtree_iff.mpr (Or.inl rfl)

theorem le_of_mem (h : Falls kids) {x : NodeId} : ∀ {id}, x ∈ subtree kids id → x ≤ id := by
  intro id
  induction id using Nat.strongRecOn with
  | ind id ih =>
    intro hx
    rcases h.mem_subtree_iff.mp hx with rfl | ⟨c, hc, hxc⟩
    · exact Nat.le_refl _
    · exact Nat.le_trans (ih c (h id c hc) hxc) (Nat.le_of_lt (h id c hc))

/-- What is right below a node of a subtree is in the subtree. -/
theorem kid_mem (h : Falls kids) {j c : NodeId} (hc : c ∈ kids j) :
    ∀ {id}, j ∈ subtree kids id → c ∈ subtree kids id := by
  intro id
  induction id using Nat.strongRecOn with
  | ind id ih =>
    intro hj
    rcases h.mem_subtree_iff.mp hj with rfl | ⟨e, he, hje⟩
    · exact h.mem_subtree_iff.mpr (Or.inr ⟨c, hc, h.self_mem c⟩)
    · exact h.mem_subtree_iff.mpr (Or.inr ⟨e, he, ih e (h id e he) hje⟩)

/-- A node of a subtree other than its top is right below a node of the subtree. -/
theorem exists_above (h : Falls kids) {x : NodeId} :
    ∀ {id}, x ∈ subtree kids id → x ≠ id → ∃ j ∈ subtree kids id, x ∈ kids j := by
  intro id
  induction id using Nat.strongRecOn with
  | ind id ih =>
    intro hx hne
    rcases h.mem_subtree_iff.mp hx with rfl | ⟨c, hc, hxc⟩
    · exact absurd rfl hne
    · by_cases he : x = c
      · exact ⟨id, h.self_mem id, he ▸ hc⟩
      · obtain ⟨j, hj, hxj⟩ := ih c (h id c hc) hxc he
        exact ⟨j, h.mem_subtree_iff.mpr (Or.inr ⟨c, hc, hj⟩), hxj⟩

end Falls

namespace Branches

variable {kids : NodeId → List NodeId}

/-- Of two subtrees with a common node, one is inside the other. -/
theorem nested (h : Branches kids) (n : Nat) {a b x : NodeId} (hn : a ≤ x + n)
    (ha : x ∈ subtree kids a) (hb : x ∈ subtree kids b) :
    a ∈ subtree kids b ∨ b ∈ subtree kids a := by
  induction n generalizing x with
  | zero =>
    have hx : x = a := Nat.le_antisymm (h.falls.le_of_mem ha) hn
    exact Or.inl (hx ▸ hb)
  | succ n ih =>
    by_cases hxa : x = a
    · exact Or.inl (hxa ▸ hb)
    · by_cases hxb : x = b
      · exact Or.inr (hxb ▸ ha)
      · -- Both subtrees reach `x` from the one node right above it.
        obtain ⟨i, hi, hxi⟩ := h.falls.exists_above ha hxa
        obtain ⟨j, hj, hxj⟩ := h.falls.exists_above hb hxb
        have he : j = i := h.unique j i x hxj hxi
        rw [he] at hj
        refine ih ?_ hi hj
        have hlt := h.falls i x hxi
        exact Nat.le_trans hn (by rw [Nat.add_succ, ← Nat.succ_add]; exact Nat.add_le_add_right hlt n)

/-- A subtree with a node of another one, whose top is below nothing, is inside it. -/
theorem mem_of_top (h : Branches kids) {a b x : NodeId} (hTop : ∀ j, a ∉ kids j)
    (ha : x ∈ subtree kids a) (hb : x ∈ subtree kids b) : b ∈ subtree kids a := by
  rcases h.nested a (Nat.le_add_left a x) ha hb with hab | hba
  · by_cases he : a = b
    · exact he ▸ h.falls.self_mem a
    · obtain ⟨j, -, hj⟩ := h.falls.exists_above hab he
      exact absurd hj (hTop j)
  · exact hba

theorem eq_of_tops (h : Branches kids) {a b x : NodeId} (hTop : ∀ j, a ∉ kids j)
    (hTop' : ∀ j, b ∉ kids j) (ha : x ∈ subtree kids a) (hb : x ∈ subtree kids b) : a = b :=
  Nat.le_antisymm (h.falls.le_of_mem (h.mem_of_top hTop' hb ha))
    (h.falls.le_of_mem (h.mem_of_top hTop ha hb))

/-- The subtrees right below a node are disjoint. -/
theorem kids_disjoint (h : Branches kids) {id a b : NodeId} (ha : a ∈ kids id) (hb : b ∈ kids id)
    (hne : a ≠ b) : (subtree kids a).Disjoint (subtree kids b) := by
  have hAux : ∀ {a b : NodeId}, a ∈ kids id → b ∈ kids id → a ≠ b → a ∉ subtree kids b := by
    intro a b ha hb hne hab
    obtain ⟨j, hj, haj⟩ := h.falls.exists_above hab hne
    have hji : j = id := h.unique j id a haj ha
    have hle := h.falls.le_of_mem hj
    rw [hji] at hle
    exact Nat.not_lt.mpr hle (h.falls id b hb)
  intro x hxa hxb
  rcases h.nested a (Nat.le_add_left a x) hxa hxb with hab | hba
  · exact hAux ha hb hne hab
  · exact hAux hb ha hne.symm hba

theorem subtree_nodup (h : Branches kids) (id : NodeId) : (subtree kids id).Nodup := by
  induction id using Nat.strongRecOn with
  | ind id ih =>
    rw [h.falls.subtree_eq, List.nodup_cons, List.nodup_flatMap]
    refine ⟨?_, fun c hc => ih c (h.falls id c hc), ?_⟩
    · intro hm
      obtain ⟨c, hc, hid⟩ := List.mem_flatMap.mp hm
      exact Nat.not_lt.mpr (h.falls.le_of_mem hid) (h.falls id c hc)
    · exact (h.nodup id).pairwise_of_forall_ne fun a ha b hb hne => h.kids_disjoint ha hb hne

end Branches

end StageScript

import Mathlib
import StageScript.Proofs.Analysis.Course
import StageScript.Proofs.Analysis.Usage

/-!
# Every analysis comes to an end

In a grounded tree (`Tree.Grounded`) parts come before what they are parts of, while tables may
have anything under their names.  A walk that is allowed to go deep enough then follows the
course of what it has to do (`Traced`), for better or worse: between two first uses it only goes
down, and every first use leaves fewer definitions (`Tree.left`).  So the bound on the depth of
walks is never felt.
-/

namespace StageScript

namespace Tree

def Grounded (t : Tree) : Prop :=
  ∀ id k, t.kind? id = some k → ∀ c ∈ k.children, c < t.size → c < id

theorem grounded_iff {t : Tree} :
    t.Grounded ↔ ∀ p ∈ t.numbered, ∀ c ∈ p.2.kind.children, c < t.size → c < p.1 := by
  constructor
  · rintro h ⟨id, node⟩ hm
    exact h id node.kind (kind?_eq_some_iff.mpr ⟨node, mem_numbered_iff.mp hm, rfl⟩)
  · intro h id k hk
    obtain ⟨node, hn, rfl⟩ := kind?_eq_some_iff.mp hk
    exact h (id, node) (mem_numbered_iff.mpr hn)

instance (t : Tree) : Decidable t.Grounded := decidable_of_iff _ grounded_iff.symm

/-- How deep a walk goes from a node if it uses nothing for the first time. -/
def height (t : Tree) (id : NodeId) : Nat := if id < t.size then id + 1 else 0

theorem height_of_kind? {t : Tree} {id : NodeId} {k : NodeKind} (hk : t.kind? id = some k) :
    t.height id = id + 1 := if_pos (lt_size_of_kind? hk)

theorem height_le (t : Tree) (id : NodeId) : t.height id ≤ t.size := by
  rw [height]
  split
  · assumption
  · exact Nat.zero_le _

theorem Grounded.height_lt {t : Tree} (h : t.Grounded) {id c : NodeId} {k : NodeKind}
    (hk : t.kind? id = some k) (hc : c ∈ k.children) : t.height c < t.height id := by
  rw [height_of_kind? hk, height]
  split
  · rename_i hlt
    exact Nat.succ_lt_succ (h id k hk c hc hlt)
  · exact Nat.succ_pos id

def left (t : Tree) (seen : List NodeId) : Nat :=
  (t.definitions.map Prod.fst).countP fun d => !seen.contains d

theorem left_le_length (t : Tree) (seen : List NodeId) : t.left seen ≤ t.definitions.length :=
  Nat.le_trans List.countP_le_length (Nat.le_of_eq (List.length_map _))

theorem left_append_le (t : Tree) (seen more : List NodeId) : t.left (seen ++ more) ≤ t.left seen := by
  refine List.countP_mono_left fun d _ hd => ?_
  simp only [List.contains_eq_mem, List.mem_append, Bool.not_eq_true', decide_eq_false_iff_not,
    not_or] at hd ⊢
  exact hd.1

/-- One more definition is seen. -/
theorem left_lt {t : Tree} {seen : List NodeId} {d : NodeId} (hd : ¬ t.Undefined d)
    (hs : d ∉ seen) : t.left (seen ++ [d]) < t.left seen := by
  obtain ⟨e, he⟩ : ∃ e, t.kind? d = some (.definition e) := by
    simpa [Undefined] using hd
  have hMem : d ∈ t.definitions.map Prod.fst :=
    List.mem_map.mpr ⟨(d, e), mem_definitions_iff.mpr he, rfl⟩
  obtain ⟨before, after, hSplit⟩ := List.append_of_mem hMem
  have hMono : ∀ ids : List NodeId, (ids.countP fun x => !(seen ++ [d]).contains x) ≤
      ids.countP fun x => !seen.contains x := by
    intro ids
    refine List.countP_mono_left fun x _ hx => ?_
    simp only [List.contains_eq_mem, List.mem_append, Bool.not_eq_true', decide_eq_false_iff_not,
      not_or] at hx ⊢
    exact hx.1
  have hBefore := hMono before
  have hAfter := hMono after
  rw [left, left, hSplit, List.countP_append, List.countP_append, List.countP_cons,
    List.countP_cons]
  simp only [List.contains_eq_mem, List.mem_append, List.mem_singleton, or_true, decide_true,
    Bool.not_true, hs, decide_false, Bool.not_false, if_true, Bool.false_eq_true, if_false] at hBefore hAfter ⊢
  omega

end Tree

/-! ### Annotations along a course -/

/-- The annotations are those of the tree, and the definitions of `seen` are reached in them.  Their
visits have 32 bits. -/
structure Mirrors (t : Tree) (seen : List NodeId) (a : Annotations) : Prop where
  size : a.entries.size = t.size
  visits_lt : ∀ n, a.visits n < 2 ^ 32
  states : ∀ d, a.state? d = none ↔ t.Undefined d
  reached : ∀ d, a.isReachable d = true ↔ d ∈ seen

namespace Mirrors

variable {t : Tree} {seen : List NodeId} {a b : Annotations}

theorem carries (h : Mirrors t seen a) : t.Carries a := by
  refine ⟨fun id k hk => ?_, h.visits_lt⟩
  have hid : id < a.entries.size := h.size ▸ Tree.lt_size_of_kind? hk
  refine ⟨a.entries[id], Array.getElem?_eq_getElem hid, fun hd => ?_⟩
  have hState : a.state? id ≠ none := by
    rw [Ne, h.states]
    intro hu
    cases k with
    | definition e => exact hu e hk
    | _ => cases hd
  rw [Annotations.state?, Annotations.get?, Array.getElem?_eq_getElem hid] at hState
  exact Option.ne_none_iff_exists'.mp hState

/-- A change that moves no mark. -/
theorem of_marks (h : Mirrors t seen a) (hSize : b.entries.size = a.entries.size)
    (hVisits : ∀ n, b.visits n < 2 ^ 32)
    (hMarks : ∀ n, (b.state? n).map DefState.unreachable = (a.state? n).map DefState.unreachable) :
    Mirrors t seen b := by
  refine ⟨hSize.trans h.size, hVisits, fun d => ?_, fun d => ?_⟩
  · rw [← h.states, ← Option.map_eq_none_iff, hMarks, Option.map_eq_none_iff]
  · have hFlag := congrArg (fun o => (o.map fun u => !u).getD false) (hMarks d)
    simp only [Option.map_map] at hFlag
    rw [← h.reached]
    exact iff_of_eq (congrArg (· = true) hFlag)

theorem visit (h : Mirrors t seen a) (id : NodeId) : Mirrors t seen (a.visit id) :=
  h.of_marks Array.size_modify (Annotations.visits_visit_lt h.visits_lt id)
    fun n => by rw [Annotations.state?_visit]

theorem rewritten {id : NodeId} {f : Note → Note} (h : Mirrors t seen a) (hr : Rewritten id f a b) :
    Mirrors t seen b :=
  h.of_marks hr.size (fun n => hr.visits n ▸ h.visits_lt n) fun n => by rw [hr.states]

theorem counted {id : NodeId} {count : DefState → DefState} (h : Mirrors t seen a)
    (hc : Counted t id count a b) (hCount : ∀ s, (count s).unreachable = s.unreachable) :
    Mirrors t seen b := by
  refine h.of_marks hc.size (fun n => hc.visits n ▸ h.visits_lt n) fun n => ?_
  rw [hc.states]
  split
  · rw [Option.map_map]
    exact congrArg (Option.map · _) (funext hCount)
  · rfl

theorem marked {d : NodeId} (h : Mirrors t seen a) (hm : Marked d a b) :
    Mirrors t (seen ++ [d]) b := by
  refine ⟨hm.size.trans h.size, fun n => hm.visits n ▸ h.visits_lt n, fun n => ?_, fun n => ?_⟩
  · rw [hm.states, ← h.states]
    split
    · rw [Option.map_eq_none_iff]
    · rfl
  · rw [List.mem_append, List.mem_singleton]
    by_cases hn : n = d
    · rw [hn]
      exact iff_of_true hm.reached (Or.inr rfl)
    · rw [Annotations.isReachable, hm.states, if_neg hn, ← Annotations.isReachable, h.reached]
      simp [hn]

theorem ofTree (t : Tree) : Mirrors t [] (.ofTree t) := by
  refine ⟨by simp [Annotations.ofTree, Tree.size],
    fun n => Annotations.visits_ofTree t n ▸ Nat.two_pow_pos 32, fun d => ?_, fun d => ?_⟩
  · rw [Annotations.state?, Annotations.get?_ofTree, Tree.Undefined]
    cases hn : t.get? d with
    | none => simp [Tree.kind?, hn]
    | some node =>
      obtain ⟨-, hDef, hPlain⟩ := Annotations.initial_cases node
      cases hd : node.kind.isDefinition with
      | false =>
        have hKind := NodeKind.isDefinition_eq_false_iff.mp hd
        simp [Tree.kind?, hn, (hPlain hd).1, hKind]
      | true =>
        obtain ⟨s, hs, -⟩ := hDef hd
        obtain ⟨e, he⟩ : ∃ e, node.kind = .definition e := by
          cases hk : node.kind <;> simp_all [NodeKind.isDefinition]
        simp [Tree.kind?, hn, hs, he]
  · rw [Annotations.isReachable_ofTree]
    simp

end Mirrors

def Concludes {α : Type} (t : Tree) (seen : List NodeId) (a : Annotations) (events : List Event) :
    Option Diagnostic → Except Diagnostic (α × Annotations) → Prop
  | some d, result => result = .error d
  | none, result => ∃ r b, result = .ok (r, b) ∧ Mirrors t (seen ++ entered events) b ∧
      ∀ n, b.visits n = narrow (a.visits n + (walked events).count n)

/-- The step follows the course of the errands, and so does the other one, with the same result. -/
def Traced {α : Type} (t : Tree) (options : Options) (seen : List NodeId) (chain : Chain)
    (errands : List Errand) (a : Annotations) (step other : Analysis α) : Prop :=
  ∃ events fault, Course t options seen chain errands events fault ∧ other a = step a ∧
    Concludes t seen a events fault (step a)

structure Poised (t : Tree) (room : Nat) (seen : List NodeId) (a : Annotations) : Prop where
  mirrors : Mirrors t seen a
  left_le : t.left seen * (t.size + 1) ≤ room

theorem Poised.later {t : Tree} {room : Nat} {seen more : List NodeId} {a b : Annotations}
    (h : Poised t room seen a) (hb : Mirrors t (seen ++ more) b) : Poised t room (seen ++ more) b :=
  ⟨hb, Nat.le_trans (Nat.mul_le_mul_right _ (t.left_append_le seen more)) h.left_le⟩

namespace Traced

variable {α β : Type} {t : Tree} {options : Options} {seen : List NodeId} {chain : Chain}
  {errands rest : List Errand} {a : Annotations} {room : Nat}

theorem bind {step other : Analysis α} {next next' : α → Analysis β}
    (h : Traced t options seen chain errands a step other) (hp : Poised t room seen a)
    (hNext : ∀ r b events, step a = .ok (r, b) →
      Course t options seen chain errands events none → Poised t room (seen ++ entered events) b →
      Traced t options (seen ++ entered events) chain rest b (next r) (next' r)) :
    Traced t options seen chain (errands ++ rest) a (step >>= next) (other >>= next') := by
  obtain ⟨events, fault, hCourse, hSame, hEnd⟩ := h
  have hLeft : (step >>= next) a = step a >>= fun p => next p.1 p.2 := rfl
  have hRight : (other >>= next') a = other a >>= fun p => next' p.1 p.2 := rfl
  cases fault with
  | some d =>
    have hStep : step a = .error d := hEnd
    refine ⟨events, some d, hCourse.append_fault rest, ?_, ?_⟩
    · rw [hLeft, hRight, hSame, hStep]
      rfl
    · rw [hLeft, hStep]
      rfl
  | none =>
    obtain ⟨r, b, hStep, hMirrors, hVisits⟩ := hEnd
    obtain ⟨more, fault, hRest, hAgain, hFinal⟩ := hNext r b events hStep hCourse (hp.later hMirrors)
    have hRun : (step >>= next) a = next r b := by
      rw [hLeft, hStep]
      rfl
    refine ⟨events ++ more, fault, hCourse.append hRest, ?_, ?_⟩
    · rw [hRun, hRight, hSame, hStep]
      exact hAgain
    · rw [hRun]
      cases fault with
      | some d => exact hFinal
      | none =>
        obtain ⟨s, c, hLast, hMirrors', hVisits'⟩ := hFinal
        refine ⟨s, c, hLast, ?_, fun n => ?_⟩
        · rw [entered_append, ← List.append_assoc]
          exact hMirrors'
        · rw [hVisits', hVisits, walked_append, List.count_append, narrow_narrow_add,
            Nat.add_assoc]

/-- The errands are done before the last step. -/
theorem finish {step other : Analysis α} {next next' : α → Analysis β}
    (h : Traced t options seen chain errands a step other) (hp : Poised t room seen a)
    (hNext : ∀ r seen b, Poised t room seen b →
      Traced t options seen chain [] b (next r) (next' r)) :
    Traced t options seen chain errands a (step >>= next) (other >>= next') := by
  have hAll := h.bind hp fun r b _ _ _ hb => hNext r _ b hb
  rw [List.append_nil] at hAll
  exact hAll

/-- A step that looks nothing up and walks nothing. -/
theorem quiet {step : Analysis α} {r : α} {b : Annotations} (hStep : step a = .ok (r, b))
    (hb : Mirrors t seen b) (hVisits : ∀ n, b.visits n = a.visits n) :
    Traced t options seen chain [] a step step :=
  ⟨[], none, .done, rfl, r, b, hStep, by simpa using hb, fun n =>
    (narrow_of_lt (hb.visits_lt n)).symm.trans (congrArg narrow (hVisits n))⟩

theorem pure (h : Mirrors t seen a) (r : α) :
    Traced t options seen chain [] a (pure r : Analysis α) (pure r) :=
  quiet rfl h fun _ => rfl

theorem look (h : Mirrors t seen a) (f : Annotations → α) :
    Traced t options seen chain [] a (Analysis.look f) (Analysis.look f) :=
  quiet rfl h fun _ => rfl

/-- A node is visited, and its errands are run. -/
theorem visited {id : NodeId} {k : NodeKind} {step other : Analysis Unit}
    (h : Mirrors t seen a) (hk : t.kind? id = some k)
    (hStep : Traced t options seen (k.scope chain) (k.errands options chain) (a.visit id) step other) :
    Traced t options seen chain [.walk id] a (Analysis.visit id >>= fun _ => step)
      (Analysis.visit id >>= fun _ => other) := by
  obtain ⟨events, fault, hCourse, hSame, hEnd⟩ := hStep
  cases fault with
  | some d => exact ⟨_, _, .walkFails hk hCourse, hSame, hEnd⟩
  | none =>
    obtain ⟨r, b, hRun, hMirrors, hVisits⟩ := hEnd
    refine ⟨_, _, .walk hk hCourse .done, hSame, r, b, hRun, by simpa using hMirrors, fun n => ?_⟩
    rw [hVisits, walked_walk, List.append_nil, List.count_cons]
    by_cases hn : id = n
    · subst hn
      rw [Annotations.visits_visit_self (h.size ▸ Tree.lt_size_of_kind? hk)]
      rw [narrow_narrow_add, if_pos (beq_self_eq_true id), Nat.add_assoc, Nat.add_comm 1]
    · rw [a.visits_visit_of_ne (Ne.symm hn)]
      simp [hn]

end Traced

/-! ### Steps of walks -/

namespace Analysis

variable {t : Tree} {options : Options} {seen : List NodeId} {chain : Chain} {a : Annotations}
  {id : NodeId} {k : NodeKind}

theorem traced_annotate (h : Mirrors t seen a) (hk : t.kind? id = some k) (note : Note) :
    Traced t options seen chain [] a (annotate id note) (annotate id note) := by
  have hRuns : Runs t options [id] [] a (annotate id note) fun _ _ => True :=
    runs_annotate h.carries hk (List.mem_singleton.mpr rfl) note
  obtain ⟨_, b, -, hRun, -, -⟩ := hRuns
  exact .quiet hRun (h.rewritten (annotate_ok hRun)) (annotate_ok hRun).visits

theorem traced_setEffectFree (h : Mirrors t seen a) (hk : t.kind? id = some k) (free : Bool) :
    Traced t options seen chain [] a (setEffectFree id free) (setEffectFree id free) := by
  have hRuns : Runs t options [id] [] a (setEffectFree id free) fun _ _ => True :=
    runs_setEffectFree h.carries hk (List.mem_singleton.mpr rfl) free
  obtain ⟨_, b, -, hRun, -, -⟩ := hRuns
  exact .quiet hRun (h.rewritten (setEffectFree_ok hRun)) (setEffectFree_ok hRun).visits

theorem traced_countUse (h : Mirrors t seen a) {d : Definition}
    (hd : t.kind? id = some (.definition d)) {count : DefState → DefState}
    (hCount : ∀ s, (count s).unreachable = s.unreachable) :
    Traced t options seen chain [] a (countUse t id count) (countUse t id count) := by
  have hRuns : Runs t options [] [] a (countUse t id count) fun _ _ => True :=
    runs_countUse h.carries hd hCount
  obtain ⟨_, b, -, hRun, -, -⟩ := hRuns
  exact .quiet hRun (h.counted (countUse_ok hRun) hCount) (countUse_ok hRun).visits

/-- What a name stands for after it could be looked up. -/
theorem exists_definition {name : String} {events : List Event}
    (h : Course t options seen chain [.lookup name] events none) {target : NodeId}
    (hf : chain.find? name = some target) : ∃ d, t.kind? target = some (.definition d) := by
  have hFine := h.whole.1 _ List.mem_cons_self
  by_contra hNone
  exact hFine ⟨target, hf, fun e he => hNone ⟨e, he⟩⟩

theorem traced_countAssign (h : Mirrors t seen a) {name : String}
    (hDef : ∀ target, chain.find? name = some target → ∃ d, t.kind? target = some (.definition d)) :
    Traced t options seen chain [] a (countAssign t (chain.find? name))
      (countAssign t (chain.find? name)) := by
  cases hf : chain.find? name with
  | none => exact .pure h ()
  | some target =>
    obtain ⟨d, hd⟩ := hDef target hf
    exact traced_countUse h hd fun _ => rfl

def Follows (t : Tree) (options : Options) (depth : Nat) (walk other : Walker) : Prop :=
  ∀ {chain : Chain} {id : NodeId} {seen : List NodeId} {a : Annotations} {room : Nat},
    Poised t room seen a → room + t.height id < depth →
    Traced t options seen chain [.walk id] a (walk chain id) (other chain id)

variable {walk other : Walker} {depth room : Nat}

theorem run_of_ok {α β : Type} {step : Analysis α} {r : α} {b : Annotations}
    (h : step a = .ok (r, b)) (next : α → Analysis β) : (step >>= next) a = next r b := by
  change (step a >>= fun p => next p.1 p.2) = _
  rw [h]
  rfl

theorem run_of_error {α β : Type} {step : Analysis α} {d : Diagnostic}
    (h : step a = .error d) (next : α → Analysis β) : (step >>= next) a = .error d := by
  change (step a >>= fun p => next p.1 p.2) = _
  rw [h]
  rfl

theorem reach_of_none {d : NodeId} (h : a.state? d = none) :
    reach d a = .error (Annotations.missing d "definition state") := by
  have hState : a.state d = .error (Annotations.missing d "definition state") := by
    rw [Annotations.state, h]
  change ((liftM (a.state d) : Analysis DefState) >>= fun before =>
    update (fun a => a.updateState d fun s => { s with unreachable := false }) >>= fun _ =>
      pure before.unreachable) a = _
  rw [hState]
  rfl

/-- The first use of a definition leaves room for its walk. -/
theorem Poised.marked {d : NodeId} {b : Annotations} (hp : Poised t room seen a)
    (hm : Marked d a b) (hd : ¬ t.Undefined d) (hs : d ∉ seen) :
    t.size + 1 ≤ room ∧ Poised t (room - (t.size + 1)) (seen ++ [d]) b := by
  have hLe : (t.left (seen ++ [d]) + 1) * (t.size + 1) ≤ room :=
    Nat.le_trans (Nat.mul_le_mul_right _ (Tree.left_lt hd hs)) hp.left_le
  rw [Nat.succ_mul] at hLe
  exact ⟨Nat.le_trans (Nat.le_add_left _ _) hLe, hp.mirrors.marked hm, Nat.le_sub_of_add_le hLe⟩

/-- A name is looked up, and what it stands for is walked at its first use. -/
theorem traced_resolve (hWalk : Follows t options depth walk other) (hp : Poised t room seen a)
    (hRoom : room < depth) (name : String) :
    Traced t options seen chain [.lookup name] a (resolve walk chain name)
      (resolve other chain name) := by
  have hKept : ∀ n, a.visits n = narrow (a.visits n) := fun n =>
    (narrow_of_lt (hp.mirrors.visits_lt n)).symm
  rw [Traced, resolve, resolve]
  cases hd : chain.declaring? name with
  | none =>
    refine ⟨_, none, .unknown hd .done, rfl, none, a, rfl, ?_, hKept⟩
    simpa using hp.mirrors
  | some found =>
    obtain ⟨declared, d⟩ := found
    dsimp only
    cases hs : a.state? d with
    | none =>
      rw [run_of_error (reach_of_none hs), run_of_error (reach_of_none hs)]
      exact ⟨_, _, .misdeclared hd ((hp.mirrors.states d).mp hs), rfl, rfl⟩
    | some s =>
      have hDef : ¬ t.Undefined d := by
        rw [← hp.mirrors.states, hs]
        simp
      obtain ⟨e, he, hState⟩ := Option.bind_eq_some_iff.mp hs
      have hReach := reach_of_get? he hState
      rw [run_of_ok hReach, run_of_ok hReach]
      rcases reach_ok hReach with ⟨hFirst, hSame, hReached⟩ | ⟨hFirst, hMarked⟩
      · rw [hFirst, hSame]
        refine ⟨_, none, .known hd ((hp.mirrors.reached d).mp hReached) hDef .done, rfl, ?_⟩
        exact ⟨some d, a, rfl, by simpa using hp.mirrors, hKept⟩
      · have hNew : d ∉ seen := by
          rw [← hp.mirrors.reached]
          simp [Annotations.isReachable, hs, hFirst]
        obtain ⟨hSize, hNext⟩ := Poised.marked hp hMarked hDef hNew
        have hDeep : room - (t.size + 1) + t.height d < depth := by
          have hHeight := t.height_le d
          omega
        obtain ⟨events, fault, hCourse, hSame, hEnd⟩ := hWalk hNext hDeep
        rw [hFirst, if_pos rfl, if_pos rfl]
        cases fault with
        | some fault =>
          have hRun : walk declared d _ = .error fault := hEnd
          rw [run_of_error hRun, run_of_error (hSame.trans hRun)]
          exact ⟨_, some fault, .enterFails hd hNew hDef hCourse, rfl, rfl⟩
        | none =>
          obtain ⟨r, b, hRun, hMirrors, hVisits⟩ := hEnd
          rw [run_of_ok hRun, run_of_ok (hSame.trans hRun)]
          refine ⟨_, none, .enter hd hNew hDef hCourse .done, rfl, some d, b, rfl, ?_, fun n => ?_⟩
          · simpa using hMirrors
          · rw [hVisits, hMarked.visits]
            simp

theorem traced_walkAll {ids : List NodeId} (hp : Poised t room seen a)
    (hEach : ∀ c ∈ ids, ∀ seen b, Poised t room seen b →
      Traced t options seen chain [.walk c] b (walk chain c) (other chain c)) :
    Traced t options seen chain (ids.map .walk) a (walkAll walk chain ids)
      (walkAll other chain ids) := by
  induction ids generalizing seen a with
  | nil => exact .pure hp.mirrors true
  | cons c ids ih =>
    refine (hEach c List.mem_cons_self seen a hp).bind hp fun _ b _ _ _ hb => ?_
    refine (Traced.look hb.mirrors _).bind hb fun first b' _ _ _ hb' => ?_
    refine (ih hb' fun d hd => hEach d (List.mem_cons_of_mem c hd)).finish hb' fun rest _ e he => ?_
    exact .pure he.mirrors (first.effectFree && rest)

structure Underway (t : Tree) (options : Options) (walk other : Walker) (depth room : Nat)
    (id : NodeId) (k : NodeKind) : Prop where
  grounded : t.Grounded
  follows : Follows t options depth walk other
  kind : t.kind? id = some k
  deep : room + t.height id < depth + 1

namespace Underway

theorem room_lt (h : Underway t options walk other depth room id k) : room < depth := by
  have hDeep := h.deep
  rw [Tree.height_of_kind? h.kind] at hDeep
  omega

theorem part (h : Underway t options walk other depth room id k) {c : NodeId}
    (hc : c ∈ k.children) (hp : Poised t room seen a) :
    Traced t options seen chain [.walk c] a (walk chain c) (other chain c) := by
  refine h.follows hp ?_
  have hLt := h.grounded.height_lt h.kind hc
  have hDeep := h.deep
  omega

theorem parts (h : Underway t options walk other depth room id k) (hp : Poised t room seen a) :
    Traced t options seen chain (k.children.map .walk) a (walkAll walk chain k.children)
      (walkAll other chain k.children) :=
  traced_walkAll hp fun _ hc _ _ hb => h.part hc hb

/-- One part, and a step that walks nothing. -/
theorem single (h : Underway t options walk other depth room id k) {only : NodeId}
    {step : Analysis Unit} (hParts : k.children = [only]) (hp : Poised t room seen a)
    (hStep : ∀ seen b, Poised t room seen b → Traced t options seen chain [] b step step) :
    Traced t options seen chain (k.children.map .walk) a (do walk chain only; step)
      (do other chain only; step) := by
  have hOnly : only ∈ k.children := by simp [hParts]
  rw [hParts]
  exact (h.part hOnly hp).bind hp fun _ b _ _ _ hb => hStep _ b hb

/-- Two parts in turn, and a step that walks nothing. -/
theorem pair (h : Underway t options walk other depth room id k) {first second : NodeId}
    {step : Analysis Unit} (hParts : k.children = [first, second]) (hp : Poised t room seen a)
    (hStep : ∀ seen b, Poised t room seen b → Traced t options seen chain [] b step step) :
    Traced t options seen chain (k.children.map .walk) a
      (do walk chain first; walk chain second; step)
      (do other chain first; other chain second; step) := by
  have hFirst : first ∈ k.children := by simp [hParts]
  have hSecond : second ∈ k.children := by simp [hParts]
  rw [hParts]
  exact (h.part hFirst hp).bind hp fun _ b _ _ _ hb =>
    (h.part hSecond hb).bind hb fun _ c _ _ _ hc => hStep _ c hc

/-- Parts that are walked for their own sake. -/
theorem discard (h : Underway t options walk other depth room id k) (hp : Poised t room seen a) :
    Traced t options seen chain (k.children.map .walk) a
      (do let _ ← walkAll walk chain k.children) (do let _ ← walkAll other chain k.children) :=
  (h.parts hp).finish hp fun _ _ _ hb => .pure hb.mirrors ()

/-- A name is looked up before parts are walked. -/
theorem named (h : Underway t options walk other depth room id k) (hp : Poised t room seen a)
    {name : String} {rest : List Errand} {next next' : Option NodeId → Analysis Unit}
    (hNext : ∀ seen b, Poised t room seen b →
      (∀ target, chain.find? name = some target → ∃ d, t.kind? target = some (.definition d)) →
      Traced t options seen chain rest b (next (chain.find? name)) (next' (chain.find? name))) :
    Traced t options seen chain (.lookup name :: rest) a (resolve walk chain name >>= next)
      (resolve other chain name >>= next') := by
  refine (traced_resolve h.follows hp h.room_lt name).bind hp fun r b _ hRun hCourse hb => ?_
  rw [resolve_eq_find? hRun]
  exact hNext _ b hb fun _ => exists_definition hCourse

theorem reference (h : Underway t options walk other depth room id k) (hp : Poised t room seen a)
    (name : String) :
    Traced t options seen chain (.lookup name :: k.children.map .walk) a
      (reference t walk chain id name k.children) (reference t other chain id name k.children) := by
  refine h.named hp fun seen b hb hDef => ?_
  cases hf : chain.find? name with
  | none =>
    exact (h.parts hb).finish hb fun _ _ _ hc => traced_annotate hc.mirrors h.kind Note.unknown
  | some target =>
    obtain ⟨d, hd⟩ := hDef target hf
    dsimp only
    rw [lift_bind (Tree.definition_of_kind? hd), lift_bind (Tree.definition_of_kind? hd)]
    refine (Traced.look hb.mirrors _).bind hb fun returns c _ _ _ hc => ?_
    refine (Traced.look hc.mirrors _).bind hc fun note c' _ _ _ hc' => ?_
    refine (h.parts hc').finish hc' fun argsFree _ e he => ?_
    have hRead : Traced t options _ chain [] e (countRead t target) (countRead t target) :=
      traced_countUse he.mirrors hd fun _ => rfl
    refine hRead.finish he fun _ _ _ hg => ?_
    exact traced_annotate hg.mirrors h.kind ⟨note.effectFree && argsFree, returns, !d.isHost⟩

theorem definition {d : Definition} (h : Underway t options walk other depth room id (.definition d))
    (hp : Poised t room seen a) :
    Traced t options seen chain ((NodeKind.definition d).children.map .walk) a
      (definition walk chain id d) (definition other chain id d) := by
  cases hb : d.body? with
  | none =>
    rw [definition_of_bodyless hb, definition_of_bodyless hb, NodeKind.children, hb]
    split
    · exact traced_setEffectFree hp.mirrors h.kind true
    · exact .pure hp.mirrors ()
  | some body =>
    have hBody : body ∈ (NodeKind.definition d).children := NodeKind.mem_children_of_body? hb
    rw [definition_of_body? hb, definition_of_body? hb, NodeKind.children, hb]
    exact h.part hBody hp

/-- The host starts entry routines from the root block. -/
theorem entries (h : Underway t options walk other depth room id k) (names : List String)
    (hp : Poised t room seen a) :
    Traced t options seen chain (names.map .lookup) a
      (names.forM fun name => do let _ ← resolve walk chain name)
      (names.forM fun name => do let _ ← resolve other chain name) := by
  induction names generalizing seen a with
  | nil => exact .pure hp.mirrors ()
  | cons name names ih =>
    have hFirst : Traced t options seen chain [.lookup name] a
        (do let _ ← resolve walk chain name) (do let _ ← resolve other chain name) :=
      (traced_resolve h.follows hp h.room_lt name).finish hp fun _ _ _ hb => .pure hb.mirrors ()
    exact hFirst.bind hp fun _ _ _ _ _ hb => ih hb

theorem block {stmts : List NodeId} {table : NameTable}
    (h : Underway t options walk other depth room id (.block stmts table))
    (hp : Poised t room seen a) :
    Traced t options seen (table :: chain) ((NodeKind.block stmts table).errands options chain) a
      (block t options walk chain id) (block t options other chain id) := by
  rw [Analysis.block, Analysis.block, lift_bind (Tree.block_of_kind? h.kind),
    lift_bind (Tree.block_of_kind? h.kind), NodeKind.errands, NodeKind.lookups]
  dsimp only
  split
  · exact (h.entries options.entryRoutines hp).bind hp fun _ _ _ _ _ hb => h.discard hb
  · exact h.discard hp

end Underway

/-- Walks that follow the course of what a node leads to follow that of the node. -/
theorem follows_nodeWith (hTree : t.Grounded) (hWalk : Follows t options depth walk other) :
    Follows t options (depth + 1) (nodeWith t options walk) (nodeWith t options other) := by
  intro chain id seen a room hp hDeep
  cases hn : t.get? id with
  | none =>
    have hk : t.kind? id = none := by rw [Tree.kind?, hn, Option.map_none]
    have hNode : t.node id = .error (Tree.missingNode id) := by rw [Tree.node, hn]
    refine ⟨_, _, .missing hk, ?_, ?_⟩
    · rw [nodeWith, nodeWith, hNode]
      rfl
    · rw [nodeWith, hNode]
      rfl
  | some node =>
    have hk : t.kind? id = some node.kind := Tree.kind?_eq_some_iff.mpr ⟨node, hn, rfl⟩
    have h : Underway t options walk other depth room id node.kind := ⟨hTree, hWalk, hk, hDeep⟩
    rw [nodeWith, nodeWith, lift_bind (Tree.node_of_get? hn), lift_bind (Tree.node_of_get? hn)]
    refine .visited hp.mirrors hk ?_
    replace hp : Poised t room seen (a.visit id) := ⟨hp.mirrors.visit id, hp.left_le⟩
    have hAnnotate : ∀ note seen b, Poised t room seen b →
        Traced t options seen chain [] b (annotate id note) (annotate id note) :=
      fun note _ _ hb => traced_annotate hb.mirrors hk note
    have hEffect : ∀ free seen b, Poised t room seen b →
        Traced t options seen chain [] b (setEffectFree id free) (setEffectFree id free) :=
      fun free _ _ hb => traced_setEffectFree hb.mirrors hk free
    have hLook : ∀ {x : NodeId} {next : Note → Analysis Unit},
        (∀ n seen b, Poised t room seen b → Traced t options seen chain [] b (next n) (next n)) →
        ∀ seen b, Poised t room seen b →
          Traced t options seen chain [] b (note x >>= next) (note x >>= next) :=
      fun hNext _ _ hb => (Traced.look hb.mirrors _).finish hb hNext
    obtain ⟨kind, span⟩ := node
    cases kind with
    | num value | char value | str value => exact hAnnotate _ _ _ hp
    | array elems =>
      refine (h.parts hp).finish hp fun free _ c hc => ?_
      exact (Traced.look hc.mirrors _).finish hc fun notes => hAnnotate (.array free notes)
    | unary op operand => exact h.single rfl hp (hLook fun _ => hAnnotate _)
    | binary op lhs rhs | element lhs rhs | slice lhs rhs =>
      exact h.pair rfl hp (hLook fun _ => hLook fun _ => hAnnotate _)
    | range start stop => exact h.pair rfl hp (hLook fun _ => hLook fun _ => hEffect _)
    | ref name | call name args => exact h.reference hp name
    | target name indices =>
      refine h.named hp fun _ b hb hDef => ?_
      exact (h.parts hb).finish hb fun _ _ _ hc => traced_countAssign hc.mirrors hDef
    | assign op lhs rhs => exact h.pair rfl hp (hEffect false)
    | succ lhs | pred lhs => exact h.single rfl hp (hEffect false)
    | varInit name rhs =>
      refine h.named hp fun _ b hb hDef => h.single rfl hb fun _ c hc => ?_
      exact (hEffect false _ c hc).finish hc fun _ _ _ he => traced_countAssign he.mirrors hDef
    | callStmt name args => exact h.named hp fun _ b hb _ => h.discard hb
    | block stmts table => exact h.block hp
    | definition d => exact h.definition hp
    | _ => exact h.discard hp

/-- Deep walks follow their courses, and deeper ones do the same. -/
theorem follows_walkAt (hTree : t.Grounded) (depth extra : Nat) :
    Follows t options depth (walkAt t options depth) (walkAt t options (depth + extra)) := by
  induction depth with
  | zero => exact fun _ hRoom => absurd hRoom (Nat.not_lt_zero _)
  | succ depth ih =>
    rw [Nat.succ_add]
    exact follows_nodeWith hTree ih

end Analysis

/-! ### Whole analyses -/

def Tree.Rooted (t : Tree) : Prop := ∃ stmts table, t.kind? t.root = some (.block stmts table)

theorem Tree.block_of_not_rooted {t : Tree} (h : ¬ t.Rooted) :
    ∃ reason position, t.block t.root = .error ⟨.malformedTree reason, position⟩ := by
  cases hn : t.get? t.root with
  | none =>
    rw [block, node, hn]
    exact ⟨_, _, rfl⟩
  | some node =>
    have hKind : t.kind? t.root = some node.kind := kind?_eq_some_iff.mpr ⟨node, hn, rfl⟩
    rw [block, node_of_get? hn]
    obtain ⟨kind, span⟩ := node
    cases kind with
    | block stmts table => exact absurd ⟨stmts, table, hKind⟩ h
    | _ => exact ⟨_, _, rfl⟩

/-- The course of the analysis of a tree.  Without a block for a root nothing is walked. -/
inductive Analyzed (t : Tree) (options : Options) : List Event → Option Diagnostic → Prop
  | rooted {events : List Event} {fault : Option Diagnostic} : t.Rooted →
      Course t options [] [] [.walk t.root] events fault → Analyzed t options events fault
  | rootless {d : Diagnostic} : ¬ t.Rooted → t.block t.root = .error d →
      Analyzed t options [] (some d)

namespace Analyzed

variable {t : Tree} {options : Options} {events : List Event} {fault : Option Diagnostic}

theorem unique (h : Analyzed t options events fault) {others : List Event}
    {other : Option Diagnostic} (g : Analyzed t options others other) :
    others = events ∧ other = fault := by
  cases h with
  | rooted hRoot hCourse =>
    cases g with
    | rooted _ g => exact hCourse.unique g
    | rootless hNot _ => exact absurd hRoot hNot
  | rootless hNot hBlock =>
    cases g with
    | rooted hRoot _ => exact absurd hRoot hNot
    | rootless _ g =>
      cases hBlock.symm.trans g
      exact ⟨rfl, rfl⟩

theorem nodup (h : Analyzed t options events fault) : (entered events).Nodup := by
  cases h with
  | rooted _ hCourse => exact hCourse.nodup List.nodup_nil
  | rootless _ _ => exact List.nodup_nil

theorem fault_malformed {d : Diagnostic} (h : Analyzed t options events (some d)) :
    ∃ reason, d.cause = .malformedTree reason := by
  cases h with
  | rooted _ hCourse => exact hCourse.fault_malformed
  | rootless hNot hBlock =>
    obtain ⟨reason, position, hError⟩ := Tree.block_of_not_rooted hNot
    cases hBlock.symm.trans hError
    exact ⟨reason, rfl⟩

end Analyzed

/-- The analysis ends as its course does, and would do so too if it could go deeper. -/
structure Completes (t : Tree) (options : Options) (events : List Event)
    (fault : Option Diagnostic) : Prop where
  ok : fault = none → ∃ a, analyze t options = .ok a ∧
    (∀ id, a.visits id = narrow ((walked events).count id)) ∧
    ∀ d, a.isReachable d = true ↔ d ∈ entered events
  error : ∀ d, fault = some d → analyze t options = .error d
  deeper : ∀ extra, Analysis.fromRoot t options
    (Analysis.walkAt t options (Analysis.maxDepth t + extra)) = analyze t options

/-- The analysis of a grounded tree follows its course to the end. -/
theorem Tree.Grounded.completes {t : Tree} (h : t.Grounded) (options : Options) :
    ∃ events fault, Analyzed t options events fault ∧ Completes t options events fault := by
  by_cases hRoot : t.Rooted
  · obtain ⟨stmts, table, hk⟩ := hRoot
    obtain ⟨⟨kind, span⟩, hn, hKind⟩ := Tree.kind?_eq_some_iff.mp hk
    cases hKind
    have hPoised : Poised t (t.definitions.length * (t.size + 1)) [] (.ofTree t) :=
      ⟨.ofTree t, Nat.mul_le_mul_right _ (t.left_le_length [])⟩
    have hDeep : t.definitions.length * (t.size + 1) + t.height t.root <
        Analysis.maxDepth t + 1 := by
      have hHeight := t.height_le t.root
      rw [Analysis.maxDepth, Nat.succ_mul]
      omega
    -- The root block is walked like every node, but for the visit that is counted outside.
    have hRun : ∀ walk, Analysis.nodeWith t options walk [] t.root (.ofTree t) =
        Analysis.block t options walk [] t.root ((Annotations.ofTree t).visit t.root) := by
      intro walk
      rw [Analysis.nodeWith, Analysis.lift_bind (Tree.node_of_get? hn)]
      rfl
    have hAll : ∀ extra, Traced t options [] [] [.walk t.root] (.ofTree t)
        (Analysis.nodeWith t options (Analysis.walkAt t options (Analysis.maxDepth t)) [] t.root)
        (Analysis.nodeWith t options (Analysis.walkAt t options (Analysis.maxDepth t + extra)) []
          t.root) :=
      fun extra => Analysis.follows_nodeWith h (Analysis.follows_walkAt h _ extra) hPoised hDeep
    obtain ⟨events, fault, hCourse, -, hEnd⟩ := hAll 0
    rw [hRun] at hEnd
    refine ⟨events, fault, .rooted ⟨stmts, table, hk⟩ hCourse, ?_, ?_, fun extra => ?_⟩
    · rintro rfl
      obtain ⟨r, a, hBlock, hMirrors, hVisits⟩ := hEnd
      refine ⟨a, ?_, fun id => ?_, fun d => ?_⟩
      · rw [Analysis.analyze_eq_fromRoot, Analysis.fromRoot, hBlock]
        rfl
      · rw [hVisits, Annotations.visits_ofTree, Nat.zero_add]
      · exact hMirrors.reached d
    · rintro d rfl
      have hBlock : Analysis.block t options _ [] t.root _ = .error d := hEnd
      rw [Analysis.analyze_eq_fromRoot, Analysis.fromRoot, hBlock]
      rfl
    · obtain ⟨_, _, -, hSame, -⟩ := hAll extra
      rw [hRun, hRun] at hSame
      rw [Analysis.analyze_eq_fromRoot, Analysis.fromRoot, Analysis.fromRoot, hSame]
  · obtain ⟨reason, position, hBlock⟩ := Tree.block_of_not_rooted hRoot
    have hStop : ∀ walk, Analysis.fromRoot t options walk = .error ⟨.malformedTree reason, position⟩ := by
      intro walk
      rw [Analysis.fromRoot, Analysis.block, hBlock]
      rfl
    refine ⟨[], _, .rootless hRoot hBlock, (fun hn => by cases hn), ?_, fun extra => ?_⟩
    · rintro d ⟨⟩
      exact hStop _
    · rw [Analysis.analyze_eq_fromRoot, hStop, hStop]

end StageScript

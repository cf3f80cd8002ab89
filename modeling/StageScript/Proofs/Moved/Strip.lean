import StageScript.Proofs.Moved.Text
import StageScript.Proofs.Twin.Block

/-!
# The same statements at two places

A `Strip` is a row of statements of a block that stands in two lists of tokens.  A parser that comes
to its start on the left leaves it at its end (`Strip.Meet.exists_passage`), and a parser that is at
its start on the right takes the same statements (`Strip.Meet.follow`): the nodes that they make are
alike, one by one, whatever the trees and the tables held before.
-/

set_option synthInstance.maxSize 4000

namespace StageScript

open Parse

/-! ### Some statements in turn -/

inductive Parse.Passage (inner : Inner) (stop : Parser → Bool) :
    Nat → Parser → List NodeId → Parser → Prop
  | refl (p : Parser) : Passage inner stop 0 p [] p
  | step {k : Nat} {p r q : Parser} {found : Option NodeId} {ids : List NodeId}
      (hMore : (p.hasTokens && !stop p) = true) (hStmt : stmtWith inner p = .ok found r)
      (hRest : Passage inner stop k r ids q) :
      Passage inner stop (k + 1) p (found.toList ++ ids) q

namespace Parse.Passage

variable {inner : Inner} {stop : Parser → Bool} {k : Nat} {p q : Parser} {ids : List NodeId}

/-- The loop over the statements goes on behind those that were taken. -/
theorem stmts_eq (h : Passage inner stop k p ids q) (n : Nat) :
    stmts inner stop (n + k) p =
      (stmts inner stop n >>= fun more => pure (ids ++ more) : Parse (List NodeId)) q := by
  induction h with
  | refl p =>
    show stmts inner stop n p = (stmts inner stop n >>= fun more => pure more) p
    cases hRun : stmts inner stop n p with
    | ok more r => exact (bind_of_ok hRun _).symm
    | fail d r => exact (bind_of_fail hRun _).symm
  | @step k p r q found ids hMore hStmt hRest ih =>
    have hTurn : stmts inner stop (n + k + 1) p =
        (stmts inner stop (n + k) >>= fun more => pure (found.toList ++ more)) r := by
      show (if (p.hasTokens && !stop p) = true then stmtWith inner >>= _ else _ : Parse _) p = _
      rw [if_pos hMore, bind_of_ok hStmt]
    refine hTurn.trans ?_
    cases hRun : stmts inner stop n q with
    | ok more q' =>
      have hMap := ih.trans (bind_of_ok hRun _)
      rw [bind_of_ok hRun, bind_of_ok hMap, List.append_assoc]
    | fail d q' =>
      have hMap := ih.trans (bind_of_fail hRun _)
      rw [bind_of_fail hRun, bind_of_fail hMap]

theorem trans {l : Nat} {r : Parser} {more : List NodeId} (h : Passage inner stop k p ids q)
    (hs : Passage inner stop l q more r) : Passage inner stop (k + l) p (ids ++ more) r := by
  induction h with
  | refl => rwa [Nat.zero_add]
  | step hMore hStmt _ ih =>
    rw [Nat.succ_add, List.append_assoc]
    exact .step hMore hStmt (ih hs)

variable [∀ power, Parse.Runs Onward (inner.expr power)]
  [∀ decls, Parse.Runs Onward (inner.block decls)]

theorem onward (h : Passage inner stop k p ids q) : Onward p q := by
  induction h with
  | refl p => exact .refl p
  | step _ hStmt _ ih => exact .trans (Runs.related hStmt) ih

/-- Statements that take no token are none. -/
theorem eq_refl_of_pos (h : Passage inner stop k p ids q) (hPos : q.pos ≤ p.pos) :
    k = 0 ∧ ids = [] ∧ q = p := by
  cases h with
  | refl => exact ⟨rfl, rfl, rfl⟩
  | step _ hStmt hRest =>
    have hLess := Takes.pos_lt hStmt
    have hLe := hRest.onward.pos_le
    omega

end Parse.Passage

/-! ### Callables -/

def Parser.BehindBlock (p : Parser) : Prop :=
  ∃ i t, p.pos = i + 1 ∧ tokenAt? p.tokens i = some t ∧ t.kind = .symbol .closeCurly

namespace Parse

variable {levels : Nat} {p q : Parser} {u : Unit} {found : Option NodeId}

theorem behindBlock_blockAt {decls : List NodeId} {id : NodeId}
    (h : blockAt levels decls p = .ok id q) : q.BehindBlock := by
  cases levels with
  | zero =>
    obtain ⟨_, r, -, hDeep⟩ := bind_eq_ok h
    cases hDeep
  | succ levels =>
    obtain ⟨s, r, ids, -, -, -, -, hClose, -, hPush⟩ := blockWith_eq_ok h
    cases hPush
    rw [Parser.kind, Parser.current_eq] at hClose
    cases hToken : tokenAt? r.tokens r.pos with
    | none =>
      rw [hToken] at hClose
      cases hClose
    | some t =>
      rw [hToken] at hClose
      exact ⟨r.pos, t, rfl, hToken, hClose⟩

/-- To declare what was read takes no token. -/
theorem behindBlock_declare {d : Definition} {start : Position} (hp : p.BehindBlock)
    (h : (look (·.spanFrom start) >>= fun span => declare d span >>= fun _ => pure ()) p =
      .ok u q) :
    q.BehindBlock := by
  obtain ⟨span, r, hLook, hRest⟩ := bind_eq_ok h
  obtain ⟨id, s, hDeclare, hEnd⟩ := bind_eq_ok hRest
  cases hLook
  cases hEnd
  obtain ⟨-, rfl⟩ := declare_eq_ok hDeclare
  exact hp

theorem behindBlock_callableDef
    (h : callableDef ⟨exprAt levels, blockAt levels⟩ p = .ok u q) : q.BehindBlock := by
  obtain ⟨first, p₁, -, h⟩ := bind_eq_ok h
  obtain ⟨token, p₂, -, h⟩ := bind_eq_ok h
  obtain ⟨ids, p₃, -, h⟩ := bind_eq_ok h
  dsimp only at h
  split at h
  · obtain ⟨result, p₄, -, h⟩ := bind_eq_ok h
    obtain ⟨body, p₅, hBlock, h⟩ := bind_eq_ok h
    exact behindBlock_declare (behindBlock_blockAt hBlock) h
  · obtain ⟨body, p₄, hBlock, h⟩ := bind_eq_ok h
    exact behindBlock_declare (behindBlock_blockAt hBlock) h

theorem behindBlock_subDef
    (h : subDef ⟨exprAt levels, blockAt levels⟩ p = .ok u q) : q.BehindBlock := by
  obtain ⟨first, p₁, -, h⟩ := bind_eq_ok h
  obtain ⟨token, p₂, -, h⟩ := bind_eq_ok h
  obtain ⟨body, p₃, hBlock, h⟩ := bind_eq_ok h
  exact behindBlock_declare (behindBlock_blockAt hBlock) h

theorem behindBlock_entryRoutine
    (h : entryRoutine ⟨exprAt levels, blockAt levels⟩ p = .ok u q) : q.BehindBlock := by
  obtain ⟨first, p₁, -, h⟩ := bind_eq_ok h
  obtain ⟨body, p₂, hBlock, h⟩ := bind_eq_ok h
  exact behindBlock_declare (behindBlock_blockAt hBlock) h

/-- The definition of a callable gives no node, and ends with the end of a block. -/
theorem behindBlock_stmtWith (hk : p.kind.opensCallable = true)
    (h : stmtWith ⟨exprAt levels, blockAt levels⟩ p = .ok found q) :
    found = none ∧ q.BehindBlock := by
  have hLook : look (fun p => p.form? p.kind) p = .ok (p.form? p.kind) p := rfl
  rw [stmtWith, bind_of_ok hLook] at h
  cases hForm : p.form? p.kind with
  | none =>
    rw [hForm] at h
    cases h
  | some kind =>
    rw [hForm] at h
    have hKind := Twin.ofKind?_of_form? hForm
    unfold TokenKind.opensCallable at hk
    split at hk
    case h_5 => cases hk
    all_goals
      rename_i hToken
      rw [hToken] at hKind
      cases hKind
      obtain ⟨u, r, hDef, hEnd⟩ := bind_eq_ok h
      cases hEnd
    · exact ⟨rfl, behindBlock_callableDef hDef⟩
    · exact ⟨rfl, behindBlock_callableDef hDef⟩
    · exact ⟨rfl, behindBlock_subDef hDef⟩
    · exact ⟨rfl, behindBlock_entryRoutine hDef⟩

end Parse

/-! ### Strips -/

/-- Statements of a block in two lists of tokens. -/
structure Strip where
  text : List Token
  before : List Token
  behind : List Token
  otherBefore : List Token
  otherBehind : List Token
  matched : Matched text
  plain : ∀ t ∈ text, t.kind ≠ .eof
  finish : Boundary (before ++ text) behind
  ended : ∃ front last, behind = front ++ [last] ∧ last.kind = .eof
  anew : Anew otherBehind
  otherBehind_ne : otherBehind ≠ []

namespace Strip

variable (S : Strip)

def left : List Token := S.before ++ S.text ++ S.behind

def right : List Token := S.otherBefore ++ S.text ++ S.otherBehind

def solo : Strip :=
  { S with
    otherBefore := S.before
    otherBehind := S.behind
    anew := S.finish.anew
    otherBehind_ne := by
      obtain ⟨front, last, hBehind, -⟩ := S.ended
      rw [hBehind]
      simp }

theorem tokenAt?_left {k : Nat} (hk : k < S.text.length) :
    tokenAt? S.left.toArray (S.before.length + k) = S.text[k]? := by
  rw [left, List.append_assoc, tokenAt?_append (by simp; omega), List.getElem?_append_left hk]

theorem tokenAt?_right {k : Nat} (hk : k < S.text.length) :
    tokenAt? S.right.toArray (S.otherBefore.length + k) = S.text[k]? := by
  rw [right, List.append_assoc, tokenAt?_append (by simp; omega), List.getElem?_append_left hk]

/-- What is open inside the strip. -/
theorem blocks_left {k : Nat} (hk : k ≤ S.text.length) :
    (openAt S.left.toArray (S.before.length + k)).blocks =
      (openAt S.left.toArray S.before.length).blocks +
        (Open.start.behind (S.text.take k)).blocks := by
  rw [left, List.append_assoc, openAt_append, openAt_length, List.take_append_of_le_length hk,
    Open.blocks_behind]

theorem behind_length_pos : 0 < S.behind.length := by
  obtain ⟨front, last, hBehind, -⟩ := S.ended
  simp [hBehind]

theorem otherBehind_length_pos : 0 < S.otherBehind.length :=
  List.length_pos_iff.mpr S.otherBehind_ne

/-- The parsers that go through the strip side by side, from `p` and from `q`. -/
def twin (p q : Parser) : Twin where
  left := S.left.toArray
  right := S.right.toArray
  exact := False
  meets i j := ∃ k ≤ S.text.length, i = S.before.length + k ∧ j = S.otherBefore.length + k
  near i j := i = S.before.length + S.text.length ∧ j = S.otherBefore.length + S.text.length
  rounds i j n m := S.left.length - i < n ∧ S.right.length - j < m
  fits ρ m n := ∃ k, m = p.tree.size + k ∧ n = q.tree.size + k ∧
    ∀ x y, ρ x y ↔ ∃ i < k, x = p.tree.size + i ∧ y = q.tree.size + i
  leftNames := p.table.entries
  rightNames := q.table.entries
  leftOuter := p.outer
  rightOuter := q.outer
  tokens_eq := False.elim
  pos_eq := False.elim
  names_eq := False.elim
  not_exact _ := id
  ended _ := by
    obtain ⟨front, last, hBehind, hLast⟩ := S.ended
    refine ⟨S.before ++ S.text ++ front, last, ?_, hLast⟩
    simp [left, hBehind]
  size_iff := by
    rintro i j ⟨k, hk, rfl, rfl⟩
    have hLeft := S.behind_length_pos
    have hRight := S.otherBehind_length_pos
    simp only [left, right, List.size_toArray, List.length_append]
    omega
  token_eq := by
    rintro i j ⟨k, hk, rfl, rfl⟩ hNear
    have hLess : k < S.text.length := by omega
    rw [S.tokenAt?_left hLess, S.tokenAt?_right hLess]
  meets_succ := by
    rintro i j ⟨k, hk, rfl, rfl⟩ hNear
    exact ⟨k + 1, by omega, by omega, by omega⟩
  ends_of_near := by
    rintro i j - - ⟨hi, -⟩
    exact S.finish.exists_ends (by simpa using hi)
  not_resumes := by
    rintro i j ⟨rfl, rfl⟩
    have hLeft := tokenAt?_length (S.before ++ S.text) S.solo.otherBehind_ne
    have hRight := tokenAt?_length (S.otherBefore ++ S.text) S.otherBehind_ne
    rw [List.length_append] at hLeft hRight
    exact ⟨fun t ht => S.finish.anew t (hLeft ▸ ht), fun t ht => S.anew t (hRight ▸ ht)⟩
  rounds_self := by
    rintro i j -
    simp
  rounds_zero := by
    rintro i j n m ⟨hn, hm⟩
    omega
  rounds_succ := by
    rintro i j i' j' n m ⟨hn, hm⟩ hi hj ⟨k, hk, rfl, rfl⟩
    have hLeft := S.behind_length_pos
    have hRight := S.otherBehind_length_pos
    simp only [left, right, List.length_append] at hn hm ⊢
    omega
  fits_push := by
    rintro ρ m n ⟨k, rfl, rfl, hρ⟩
    refine ⟨k + 1, by omega, by omega, fun x y => ?_⟩
    show ρ x y ∨ _ ↔ _
    rw [hρ]
    constructor
    · rintro (⟨i, hi, rfl, rfl⟩ | ⟨rfl, rfl⟩)
      · exact ⟨i, by omega, rfl, rfl⟩
      · exact ⟨k, by omega, rfl, rfl⟩
    · rintro ⟨i, hi, rfl, rfl⟩
      rcases Nat.lt_succ_iff_lt_or_eq.mp hi with hLess | rfl
      · exact .inl ⟨i, hLess, rfl, rfl⟩
      · exact .inr ⟨rfl, rfl⟩

structure Meet (p q : Parser) : Prop where
  left : p.tokens = S.left.toArray
  right : q.tokens = S.right.toArray
  file : q.file = p.file
  grammar : q.knowsGrammar = p.knowsGrammar
  nesting : q.nesting = p.nesting
  leftPos : p.pos = S.before.length
  rightPos : q.pos = S.otherBefore.length
  opens : openAt S.left.toArray S.before.length = ⟨p.outer.length, none⟩
  nodup : (p.table.entries.map Prod.fst).Nodup

variable {S} {p q r s : Parser} {links : Links} {σ : Option Nat} {clear : Prop} {levels : Nat}
  {stop : Parser → Bool} {k : Nat} {xs : List NodeId}

namespace Meet

theorem solo (h : S.Meet p q) : S.solo.Meet p p :=
  { h with right := h.left, file := rfl, grammar := rfl, nesting := rfl, rightPos := h.leftPos }

theorem abreast (h : S.Meet p q) : (S.twin p q).Abreast none False [] p q where
  left := h.left
  right := h.right
  file := h.file
  grammar := h.grammar
  nesting := h.nesting
  meets := ⟨0, Nat.zero_le _, h.leftPos, h.rightPos⟩
  clear := False.elim
  opens _ := h.leftPos ▸ h.opens
  nodes := by
    refine ⟨fun _ _ => False, ⟨0, rfl, rfl, by simp⟩, fun _ _ h => h.elim, ?_, ?_⟩
    · exact List.forall_mem_nil _
    · have hNodup : ((p.table.entries ++ []).map Prod.fst).Nodup := by simpa using h.nodup
      have hBase := @Twin.Chains.base (S.twin p q) (fun _ _ => False) [] [] .nil hNodup
      simpa [twin] using hBase

/-- At the end of the strip, the blocks are open that were open at its start. -/
theorem outer_of_near (h : S.Meet p q) (hrs : (S.twin p q).Abreast σ clear links r s)
    (hPos : r.pos = S.before.length + S.text.length) : r.outer.length = p.outer.length := by
  have hOpen := congrArg Open.blocks (hrs.opens id)
  have hBlocks := S.blocks_left (Nat.le_refl S.text.length)
  rw [h.opens, List.take_length, S.matched.closed] at hBlocks
  rw [hPos] at hOpen
  have hEq := hOpen.symm.trans hBlocks
  simpa using hEq

theorem simInner (h : S.Meet p q) (levels : Nat) :
    (S.twin p q).SimInner ⟨exprAt levels, blockAt levels⟩ := by
  refine Twin.simInner_of_bridges
    (fun levels depth hDepth n m links r s hrs hLength _ hNear => ?_) _
  have hOuter : r.outer.length = p.outer.length := h.outer_of_near hrs hNear.1
  have hLess : p.outer.length < depth := hDepth
  omega

/-- Inside the strip, the parsers see its tokens. -/
theorem current_eq (hrs : (S.twin p q).Abreast σ clear links r s)
    (hPos : r.pos ≠ S.before.length + S.text.length) :
    ∃ k, r.pos = S.before.length + k ∧ S.text[k]? = some r.current := by
  obtain ⟨k, hk, hr, -⟩ := hrs.meets
  have hLess : k < S.text.length := by omega
  refine ⟨k, hr, ?_⟩
  have hToken := S.tokenAt?_left hLess
  rw [Parser.current_eq, hrs.left, hr]
  show _ = some ((tokenAt? S.left.toArray _).getD _)
  rw [hToken, List.getElem?_eq_getElem hLess]
  rfl

/-- Inside the strip, there are statements left. -/
theorem goesOn (h : S.Meet p q) (hStop : ∀ r : Parser, stop r = true → r.kind = .symbol .closeCurly)
    (hrs : (S.twin p q).Abreast none clear links r s) (hOuter : r.outer.length = p.outer.length)
    (hPos : r.pos ≠ S.before.length + S.text.length) : (r.hasTokens && !stop r) = true := by
  obtain ⟨k, hr, hToken⟩ := current_eq hrs hPos
  have hk : k < S.text.length := (List.getElem?_eq_some_iff.mp hToken).1
  have hTokens : r.hasTokens = true := by
    have hKind : r.kind ≠ .eof := S.plain _ (List.mem_of_getElem? hToken)
    have hSize : r.pos < r.tokens.size := by
      rw [hrs.left, hr]
      simp only [twin, Strip.left, List.size_toArray, List.length_append]
      omega
    simp [Parser.hasTokens, hKind, hSize]
  -- a closing bracket would close a block that was open before the strip
  have hOpen : stop r = false := by
    refine Bool.eq_false_iff.mpr fun hStopped => ?_
    have hBlocks := congrArg Open.blocks (hrs.opens_succ id)
    have hLeft := S.blocks_left (Nat.succ_le_of_lt hk)
    have hCovered := S.matched.covered _ (List.take_prefix (k + 1) S.text)
    rw [h.opens] at hLeft
    rw [hStop r hStopped, hr, hOuter, Nat.add_assoc] at hBlocks
    have hEq : (p.outer.length : ℤ) + -1 =
        p.outer.length + (Open.start.behind (S.text.take (k + 1))).blocks :=
      hBlocks.symm.trans hLeft
    omega
  rw [hTokens, hOpen]
  rfl

theorem exists_passage_from (h : S.solo.Meet p p)
    (hStop : ∀ r : Parser, stop r = true → r.kind = .symbol .closeCurly) (n : Nat) :
    ∀ (links : Links) (r s : Parser) (ids : List NodeId),
      (S.solo.twin p p).Abreast none False links r r → r.outer.length = p.outer.length →
      stmts ⟨exprAt levels, blockAt levels⟩ stop n r = .ok ids s → S.left.length - r.pos < n →
      ∃ k m xs u, n = m + k ∧ Passage ⟨exprAt levels, blockAt levels⟩ stop k r xs u ∧
        S.left.length - u.pos < m ∧ u.pos = S.before.length + S.text.length ∧
        ∃ links, (S.solo.twin p p).Abreast none False links u u := by
  induction n with
  | zero => exact fun _ _ _ _ _ _ _ hn => absurd hn (Nat.not_lt_zero _)
  | succ n ih =>
    intro links r s ids hr hOuter hRun hn
    by_cases hPos : r.pos = S.before.length + S.text.length
    · exact ⟨0, n + 1, [], r, rfl, .refl r, hn, hPos, links, hr⟩
    have hMore := h.goesOn hStop hr hOuter hPos
    have hClear : (S.solo.twin p p).Abreast none True links r r :=
      { hr with clear := fun _ hNear => hPos hNear.1 }
    obtain ⟨more, r', hLook, hRun⟩ := bind_eq_ok hRun
    cases hLook
    rw [if_pos hMore] at hRun
    obtain ⟨found, u, hStmt, hRun⟩ := bind_eq_ok hRun
    obtain ⟨rest, u', hRest, -⟩ := bind_eq_ok hRun
    have hAgree := Twin.sim_stmtWith (h.simInner levels) links r r hClear
    rw [hStmt] at hAgree
    cases hAgree with
    | ok hu =>
      have hOnward : Onward r u := Runs.related hStmt
      have hLess := Takes.pos_lt hStmt
      obtain ⟨j, hj, huPos, -⟩ := hu.meets
      have hBehind := S.behind_length_pos
      have huSize : S.left.length - u.pos < n := by
        have hText : j ≤ S.text.length := hj
        have huPos : u.pos = S.before.length + j := huPos
        simp only [Strip.left, List.length_append] at hn ⊢
        omega
      obtain ⟨k, m, xs, v, hEq, hPassage, hm, hv, hAbreast⟩ :=
        ih _ u u' rest hu (by rw [hOnward.outer, hOuter]) hRest huSize
      exact ⟨k + 1, m, found.toList ++ xs, v, by omega, .step hMore hStmt hPassage, hm, hv,
        hAbreast⟩

/-- A parser that takes the statements of a block comes to the end of the strip. -/
theorem exists_passage (h : S.solo.Meet p p)
    (hStop : ∀ r : Parser, stop r = true → r.kind = .symbol .closeCurly) {n : Nat}
    {ids : List NodeId} (hRun : stmts ⟨exprAt levels, blockAt levels⟩ stop n p = .ok ids s)
    (hn : S.left.length - p.pos < n) :
    ∃ k m xs u, n = m + k ∧ Passage ⟨exprAt levels, blockAt levels⟩ stop k p xs u ∧
      S.left.length - u.pos < m ∧ u.pos = S.before.length + S.text.length ∧
      openAt S.left.toArray u.pos = ⟨u.outer.length, none⟩ ∧
      (u.table.entries.map Prod.fst).Nodup := by
  obtain ⟨k, m, xs, u, hEq, hPassage, hm, hPos, links, hu⟩ :=
    h.exists_passage_from hStop n [] p s ids h.abreast rfl hRun hn
  obtain ⟨ρ, -, -, -, hChains⟩ := hu.nodes
  exact ⟨k, m, xs, u, hEq, hPassage, hm, hPos, hu.opens id, hChains.nodup⟩

/-- The right parser takes the statements that the left one takes, unless it holds one of their
names already. -/
theorem follow (h : S.Meet p q) (hStop : (S.twin p q).StopsAlike stop)
    (hPassage : Passage ⟨exprAt levels, blockAt levels⟩ stop k r xs s)
    (hEnd : s.pos = S.before.length + S.text.length) :
    ∀ (u : Parser) (links : Links), (S.twin p q).Abreast none False links r u →
      (∃ ys v, Passage ⟨exprAt levels, blockAt levels⟩ stop k u ys v ∧
        (S.twin p q).Abreast none False ((xs, ys) :: links) s v) ∨
      ∃ d, (S.twin p q).Lost s d := by
  induction hPassage with
  | refl r => exact fun u links hru => .inl ⟨[], u, .refl u, hru.nil⟩
  | @step k r r' s found xs hMore hStmt hRest ih =>
    intro u links hru
    have hBefore : r.pos ≠ S.before.length + S.text.length := by
      have hLess := Takes.pos_lt hStmt
      have hLe := hRest.onward.pos_le
      omega
    have hClear : (S.twin p q).Abreast none True links r u :=
      { hru with clear := fun _ hNear => hBefore hNear.1 }
    have hMore' : (u.hasTokens && !stop u) = true := by
      rw [hClear.hasTokens_eq, hStop hClear]
      exact hMore
    have hAgree := Twin.sim_stmtWith (h.simInner levels) links r u hClear
    rw [hStmt] at hAgree
    cases hRight : stmtWith ⟨exprAt levels, blockAt levels⟩ u with
    | fail d u' =>
      rw [hRight] at hAgree
      cases hAgree with
      | lost hLost _ => exact .inr ⟨d, hLost.mono hRest.onward⟩
    | ok found' u' =>
      rw [hRight] at hAgree
      cases hAgree with
      | ok hMid =>
        rcases ih hEnd u' _ hMid with ⟨ys, v, hPassage, hv⟩ | hLost
        · refine .inl ⟨found'.toList ++ ys, v, .step hMore' hRight hPassage, ?_⟩
          exact hv.relink fun ρ hρ =>
            .cons (List.rel_append hρ.tail.list hρ.list) hρ.tail.tail
        · exact .inr hLost

/-- Behind the body of a callable, a parser is at its end. -/
theorem pos_of_behindBlock (h : S.Meet p q) (hText : CallableText S.text)
    (hrs : (S.twin p q).Abreast none clear links r s) (hOuter : r.outer.length = p.outer.length)
    (hPos : p.pos < r.pos) (hBehind : r.BehindBlock) :
    r.pos = S.before.length + S.text.length := by
  obtain ⟨i, t, hi, hToken, hClose⟩ := hBehind
  obtain ⟨j, hj, hr, -⟩ := hrs.meets
  have hText' : j ≤ S.text.length := hj
  have hr : r.pos = S.before.length + j := hr
  rw [h.leftPos] at hPos
  obtain ⟨j, rfl⟩ := Nat.exists_eq_add_of_lt (show 0 < j by omega)
  obtain rfl : i = S.before.length + j := by omega
  rw [Nat.zero_add] at hr hText'
  rw [hrs.left] at hToken
  have hAt : S.text[j]? = some t := (S.tokenAt?_left hText').symm.trans hToken
  have hBlocks := (congrArg Open.blocks (hrs.opens id)).symm.trans
    (hr ▸ S.blocks_left hText')
  rw [h.opens, hOuter] at hBlocks
  have hZero : (Open.start.behind (S.text.take (j + 1))).blocks = 0 := by
    have hEq : (p.outer.length : ℤ) =
      p.outer.length + (Open.start.behind (S.text.take (j + 1))).blocks := hBlocks
    omega
  rw [hr, hText.length_of_closed hAt hClose hZero]

/-- A callable gives no node to its block. -/
theorem eq_nil_of_callable (h : S.Meet p q) (hText : CallableText S.text)
    (hPassage : Passage ⟨exprAt levels, blockAt levels⟩ stop k p xs s)
    (hEnd : s.pos = S.before.length + S.text.length) : xs = [] := by
  have hLength : 0 < S.text.length := List.length_pos_iff.mpr hText.ne_nil
  cases hPassage with
  | refl => rfl
  | @step k _ r _ found xs hMore hStmt hRest =>
    have hPos : p.pos ≠ S.before.length + S.text.length := by
      rw [h.leftPos]
      omega
    have hClear : (S.solo.twin p p).Abreast none True [] p p :=
      { h.solo.abreast with clear := fun _ hNear => hPos hNear.1 }
    have hKind : p.kind.opensCallable = true := by
      obtain ⟨j, hj, hToken⟩ := current_eq hClear hPos
      have hj : p.pos = S.before.length + j := hj
      obtain rfl : j = 0 := by
        rw [h.leftPos] at hj
        omega
      exact hText.opens hToken
    obtain ⟨rfl, hBehind⟩ := behindBlock_stmtWith hKind hStmt
    have hAgree := Twin.sim_stmtWith (h.solo.simInner levels) [] p p hClear
    rw [hStmt] at hAgree
    cases hAgree with
    | ok hr =>
      have hOnward : Onward p r := Runs.related hStmt
      have hDone : r.pos = S.before.length + S.text.length :=
        h.solo.pos_of_behindBlock hText hr (by rw [hOnward.outer]) (Takes.pos_lt hStmt) hBehind
      exact (hRest.eq_refl_of_pos (by rw [hEnd, hDone])).2.1

end Meet

end Strip

end StageScript

import StageScript.Proofs.Twin.Basic

/-!
# Callables that change places

Where the statements of a block begin and end can be told from the tokens alone.  A statement ends
with a semicolon, a curly bracket, a header or the condition of an alternative, and a new one begins
behind it unless a word goes on with the old one (`Boundary`).  Tokens between two such places are
statements of one block if their curly brackets match (`Matched`).

`Moved` says that a callable stands at another place of its block: it has changed places with the
statements behind it, or with those before it.  Both cases are a `Swap` of two neighbours.
-/

namespace StageScript

/-! ### Places between statements -/

/-- The tokens do not go on with a statement that ended before them. -/
def Anew (ts : List Token) : Prop := ∀ t ∈ ts.head?, t.kind.resumes = false

/-- A place between two statements of a block, before the first one or behind the last one. -/
structure Boundary (before behind : List Token) : Prop where
  ended : ∀ front last, before = front ++ [last] →
    last.kind.ends (Open.start.behind front).parens = true
  anew : Anew behind

structure Matched (ts : List Token) : Prop where
  covered : ∀ front, front <+: ts → 0 ≤ (Open.start.behind front).blocks
  closed : (Open.start.behind ts).blocks = 0

theorem boundary_iff {before behind : List Token} : Boundary before behind ↔
    (∀ last ∈ before.getLast?, last.kind.ends (Open.start.behind before.dropLast).parens = true) ∧
      ∀ t ∈ behind.head?, t.kind.resumes = false := by
  refine ⟨fun h => ⟨fun last hLast => ?_, h.anew⟩, fun h => ⟨?_, h.2⟩⟩
  · exact h.ended _ last (List.dropLast_append_getLast? last hLast).symm
  · rintro front last rfl
    simpa using h.1

theorem matched_iff {ts : List Token} : Matched ts ↔
    (∀ front ∈ ts.inits, 0 ≤ (Open.start.behind front).blocks) ∧
      (Open.start.behind ts).blocks = 0 := by
  simp only [List.mem_inits]
  exact ⟨fun h => ⟨h.covered, h.closed⟩, fun h => ⟨h.1, h.2⟩⟩

instance (before behind : List Token) : Decidable (Boundary before behind) :=
  decidable_of_iff _ boundary_iff.symm

instance (ts : List Token) : Decidable (Matched ts) := decidable_of_iff _ matched_iff.symm

/-- A function, a task, a sub or a routine begins with a token of the kind. -/
def TokenKind.opensCallable : TokenKind → Bool
  | keyword .functionWord => true
  | keyword .taskWord => true
  | keyword .subWord => true
  | entryRoutine => true
  | _ => false

/-- The tokens of a callable: its first word, the others before its body, and the body. -/
inductive CallableText : List Token → Prop
  | mk {first opening closing : Token} {front body : List Token}
      (hFirst : first.kind.opensCallable = true) (hFront : ∀ t ∈ front, t.kind.turn = 0)
      (hOpening : opening.kind = .symbol .openCurly) (hBody : Matched body)
      (hClosing : closing.kind = .symbol .closeCurly) :
      CallableText (first :: (front ++ opening :: (body ++ [closing])))

/-- A callable of the first list stands elsewhere in its block in the second list. -/
inductive Moved : List Token → List Token → Prop
  | later {before callable others behind : List Token} (hCallable : CallableText callable)
      (hOthers : Matched others) (hStart : Boundary before (callable ++ others ++ behind))
      (hMiddle : Boundary (before ++ callable) (others ++ behind))
      (hEnd : Boundary (before ++ callable ++ others) behind) :
      Moved (before ++ callable ++ others ++ behind) (before ++ others ++ callable ++ behind)
  | earlier {before others callable behind : List Token} (hOthers : Matched others)
      (hCallable : CallableText callable) (hStart : Boundary before (others ++ callable ++ behind))
      (hMiddle : Boundary (before ++ others) (callable ++ behind))
      (hEnd : Boundary (before ++ others ++ callable) behind) :
      Moved (before ++ others ++ callable ++ behind) (before ++ callable ++ others ++ behind)

/-! ### What is open -/

namespace Open

theorem behind_append (o : Open) (ts us : List Token) :
    o.behind (ts ++ us) = (o.behind ts).behind us :=
  List.foldl_append ..

theorem behind_cons (o : Open) (t : Token) (ts : List Token) :
    o.behind (t :: ts) = (Open.mk (o.blocks + t.kind.turn) (t.kind.parens o.parens)).behind ts :=
  rfl

/-- Blocks that are open already stay so. -/
theorem blocks_behind (o : Open) (ts : List Token) :
    (o.behind ts).blocks = o.blocks + (start.behind ts).blocks := by
  induction ts generalizing o with
  | nil => exact (Int.add_zero _).symm
  | cons t ts ih =>
    rw [behind_cons, ih, behind_cons, ih ⟨start.blocks + t.kind.turn, _⟩]
    simp only [start]
    omega

theorem blocks_append (ts us : List Token) :
    (start.behind (ts ++ us)).blocks = (start.behind ts).blocks + (start.behind us).blocks := by
  rw [behind_append, blocks_behind]

theorem blocks_singleton (t : Token) : (start.behind [t]).blocks = t.kind.turn :=
  Int.zero_add _

theorem blocks_of_plain {ts : List Token} (h : ∀ t ∈ ts, t.kind.turn = 0) :
    (start.behind ts).blocks = 0 := by
  induction ts with
  | nil => rfl
  | cons t ts ih =>
    obtain ⟨ht, hts⟩ := List.forall_mem_cons.mp h
    rw [← List.singleton_append, blocks_append, blocks_singleton, ht, ih hts]
    rfl

end Open

/-! ### Places in lists -/

theorem tokenAt?_append {ts us : List Token} {k : Nat} (h : k < us.length) :
    tokenAt? (ts ++ us).toArray (ts.length + k) = us[k]? := by
  have hSize : (ts ++ us).toArray.size = ts.length + us.length := by simp
  rw [tokenAt?, hSize, Nat.min_eq_left (by omega), List.getElem?_toArray,
    List.getElem?_append_right (Nat.le_add_right _ _), Nat.add_sub_cancel_left]

theorem tokenAt?_length (ts : List Token) {us : List Token} (h : us ≠ []) :
    tokenAt? (ts ++ us).toArray ts.length = us.head? := by
  rw [List.head?_eq_getElem?]
  exact tokenAt?_append (List.length_pos_iff.mpr h)

theorem openAt_append (ts us : List Token) (k : Nat) :
    openAt (ts ++ us).toArray (ts.length + k) = (Open.start.behind ts).behind (us.take k) := by
  rw [openAt, List.take_length_add_append, Open.behind_append]

theorem openAt_length (ts us : List Token) :
    openAt (ts ++ us).toArray ts.length = Open.start.behind ts := by
  rw [openAt, List.take_left']
  rfl

theorem Anew.append {ts us vs : List Token} (h : Anew (ts ++ us)) (hv : Anew vs) :
    Anew (ts ++ vs) := by
  cases ts with
  | nil => exact hv
  | cons t ts => exact h

namespace Boundary

variable {before behind : List Token}

/-- The last token before the place. -/
theorem exists_ends (h : Boundary before behind) {i : Nat} (hi : i + 1 = before.length) :
    ∃ t, tokenAt? (before ++ behind).toArray i = some t ∧
      t.kind.ends (openAt (before ++ behind).toArray i).parens = true := by
  obtain ⟨front, last, rfl⟩ : ∃ front last, before = front ++ [last] := by
    have hne : before ≠ [] := List.length_pos_iff.mp (hi ▸ Nat.succ_pos i)
    exact ⟨_, _, (List.dropLast_append_getLast hne).symm⟩
  obtain rfl : i = front.length := by simpa using hi
  rw [List.append_assoc]
  refine ⟨last, tokenAt?_length _ (by simp), ?_⟩
  rw [openAt_length]
  exact h.ended front last rfl

/-- No statement ends with the end of the source. -/
theorem ne_nil {tokens : List Token} {last : Token} (h : Boundary before behind)
    (hTokens : before ++ behind = tokens ++ [last]) (hLast : last.kind = .eof) : behind ≠ [] := by
  rintro rfl
  rw [List.append_nil] at hTokens
  have hEnds := h.ended tokens last hTokens
  rw [hLast] at hEnds
  cases hEnds

end Boundary

/-! ### Matching brackets -/

theorem CallableText.ne_nil {ts : List Token} (h : CallableText ts) : ts ≠ [] := by
  cases h
  exact List.cons_ne_nil _ _

theorem TokenKind.turn_of_opensCallable {kind : TokenKind} (h : kind.opensCallable = true) :
    kind.turn = 0 := by
  unfold opensCallable at h
  split at h <;> first | rfl | cases h

section Callable

variable {first opening closing : Token} {front body : List Token}

/-- What is open inside the body of a callable. -/
theorem Open.blocks_inside (hFirst : first.kind.opensCallable = true)
    (hFront : ∀ t ∈ front, t.kind.turn = 0) (hOpening : opening.kind = .symbol .openCurly)
    (inside : List Token) :
    (start.behind (first :: front ++ opening :: inside)).blocks =
      1 + (start.behind inside).blocks := by
  have hHead : ∀ t ∈ first :: front, t.kind.turn = 0 :=
    List.forall_mem_cons.mpr ⟨TokenKind.turn_of_opensCallable hFirst, hFront⟩
  rw [blocks_append, blocks_of_plain hHead, ← List.singleton_append, blocks_append,
    blocks_singleton, hOpening]
  exact Int.zero_add _

end Callable

theorem CallableText.blocks_eq_zero {ts : List Token} (h : CallableText ts) :
    (Open.start.behind ts).blocks = 0 := by
  cases h with
  | mk hFirst hFront hOpening hBody hClosing =>
    rw [← List.cons_append, Open.blocks_inside hFirst hFront hOpening, Open.blocks_append,
      hBody.closed, Open.blocks_singleton, hClosing]
    rfl

/-- How far a callable has been read: up to its body, inside the body, or as a whole. -/
theorem CallableText.of_prefix {ts read : List Token} (h : CallableText ts) (hRead : read <+: ts) :
    (∀ t ∈ read, t.kind.turn = 0) ∨ 1 ≤ (Open.start.behind read).blocks ∨ read = ts := by
  cases h with
  | @mk first opening closing front body hFirst hFront hOpening hBody hClosing =>
    have hHead : ∀ t ∈ first :: front, t.kind.turn = 0 :=
      List.forall_mem_cons.mpr ⟨TokenKind.turn_of_opensCallable hFirst, hFront⟩
    rw [← List.cons_append] at hRead ⊢
    rcases List.prefix_or_prefix_of_prefix hRead (List.prefix_append _ _) with hIn | ⟨rest, rfl⟩
    · exact .inl fun t ht => hHead t (hIn.subset ht)
    rcases List.prefix_cons_iff.mp ((List.prefix_append_right_inj _).mp hRead) with
      rfl | ⟨inside, rfl, hInside⟩
    · exact .inl (by simpa using hHead)
    rcases List.prefix_concat_iff.mp hInside with rfl | hBefore
    · exact .inr (.inr rfl)
    · right; left
      have hCovered := hBody.covered inside hBefore
      rw [Open.blocks_inside hFirst hFront hOpening]
      omega

theorem CallableText.matched {ts : List Token} (h : CallableText ts) : Matched ts where
  covered read hRead := by
    rcases h.of_prefix hRead with hPlain | hInside | rfl
    · exact (Open.blocks_of_plain hPlain).ge
    · omega
    · exact h.blocks_eq_zero.ge
  closed := h.blocks_eq_zero

theorem CallableText.opens {ts : List Token} {t : Token} (h : CallableText ts)
    (ht : ts[0]? = some t) : t.kind.opensCallable = true := by
  cases h with
  | mk hFirst =>
    cases ht
    exact hFirst

/-- The bracket that closes the body of a callable is its last token. -/
theorem CallableText.length_of_closed {ts : List Token} {t : Token} {j : Nat} (h : CallableText ts)
    (ht : ts[j]? = some t) (hClose : t.kind = .symbol .closeCurly)
    (hBlocks : (Open.start.behind (ts.take (j + 1))).blocks = 0) : j + 1 = ts.length := by
  have hj : j < ts.length := (List.getElem?_eq_some_iff.mp ht).1
  rcases h.of_prefix (List.take_prefix (j + 1) ts) with hPlain | hInside | hWhole
  · have hMem : t ∈ ts.take (j + 1) :=
      List.mem_of_getElem? ((List.getElem?_take_of_lt (Nat.lt_succ_self j)).trans ht)
    have hTurn := hPlain t hMem
    rw [hClose] at hTurn
    cases hTurn
  · omega
  · have hLength := congrArg List.length hWhole
    rw [List.length_take] at hLength
    omega

/-! ### Neighbours -/

/-- Two neighbours that change places; one of them is a callable, and both are statements of one
block. -/
structure Swap where
  before : List Token
  first : List Token
  second : List Token
  behind : List Token
  matched_first : Matched first
  matched_second : Matched second
  callable : CallableText first ∨ CallableText second
  start : Boundary before (first ++ second ++ behind)
  middle : Boundary (before ++ first) (second ++ behind)
  finish : Boundary (before ++ first ++ second) behind
  ended : ∃ front last, behind = front ++ [last] ∧ last.kind = .eof
  plain : ∀ t ∈ first ++ second, t.kind ≠ .eof

namespace Swap

def left (S : Swap) : List Token := S.before ++ S.first ++ S.second ++ S.behind

def right (S : Swap) : List Token := S.before ++ S.second ++ S.first ++ S.behind

end Swap

/-- A callable that is moved changes places with its neighbours. -/
theorem Moved.exists_swap {tokens moved read : List Token} {last : Token} (h : Moved tokens moved)
    (hTokens : tokens = read ++ [last]) (hLast : last.kind = .eof)
    (hRead : ∀ t ∈ read, t.kind ≠ .eof) : ∃ S : Swap, S.left = tokens ∧ S.right = moved := by
  have hMake : ∀ before first second behind : List Token, Matched first → Matched second →
      CallableText first ∨ CallableText second → Boundary before (first ++ second ++ behind) →
      Boundary (before ++ first) (second ++ behind) → Boundary (before ++ first ++ second) behind →
      before ++ first ++ second ++ behind = read ++ [last] →
      ∃ S : Swap, S.left = before ++ first ++ second ++ behind ∧
        S.right = before ++ second ++ first ++ behind := by
    intro before first second behind hFirst hSecond hCallable hStart hMiddle hEnd hList
    have hne := hEnd.ne_nil hList hLast
    rw [← List.dropLast_append_getLast hne, ← List.append_assoc] at hList
    obtain ⟨hFront, hBack⟩ := List.append_inj' hList rfl
    refine ⟨⟨before, first, second, behind, hFirst, hSecond, hCallable, hStart, hMiddle, hEnd,
      ⟨_, _, (List.dropLast_append_getLast hne).symm, ?_⟩, fun t ht => hRead t ?_⟩, rfl, rfl⟩
    · rw [List.singleton_inj.mp hBack]
      exact hLast
    · rw [← hFront, List.append_assoc before]
      exact List.mem_append_left _ (List.mem_append_right _ ht)
  cases h with
  | later hCallable hOthers hStart hMiddle hEnd =>
    exact hMake _ _ _ _ hCallable.matched hOthers (.inl hCallable) hStart hMiddle hEnd hTokens
  | earlier hOthers hCallable hStart hMiddle hEnd =>
    exact hMake _ _ _ _ hOthers hCallable.matched (.inr hCallable) hStart hMiddle hEnd hTokens

end StageScript

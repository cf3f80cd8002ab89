import Mathlib
import StageScript.Proofs.Token.Cut

/-!
# The first match is the longest

Patterns are tried in the order of `Pattern.all`, and the first that matches cuts the text.  The
order is the one of lengths: where two patterns match, the earlier one takes more
(`Pattern.pairwise_all`).  Two patterns that are not symbols never match the same text, since its
first characters tell which one it can be; two symbols do so only if one begins the other; and a
comment begins with the symbol of division.

So the order of trying does not matter to a tokenizer that takes the longest match, and
`tokenize` is this tokenizer (`tokenize_takes_longest`).
-/

namespace StageScript

namespace Pattern

variable {cs : List Char} {p q : Pattern} {m n : Nat}

/-! ### First characters -/

/-- The pattern of a literal, a mark or a comment, by the characters that open it. -/
def ofOpening? : List Char → Option Pattern
  | '"' :: _ => some string
  | '\'' :: _ => some char
  | '@' :: _ => some entryRoutine
  | '#' :: _ => some header
  | '/' :: '/' :: _ => some lineComment
  | '/' :: '*' :: _ => some blockComment
  | _ => none

/-- The pattern that a text can match by its first characters, if it is not one of a symbol. -/
def ofInitials? : List Char → Option Pattern
  | [] => none
  | c :: cs =>
    if isNameStart c then some name
    else if Numeral.isDigit c then some number
    else if Text.isBlank c then some blanks
    else ofOpening? (c :: cs)

/-- A pattern that matches is the one that the first characters tell, or a symbol. -/
theorem ofInitials?_of_length? (h : p.length? cs = some n) (hp : ∀ s, p ≠ symbol s) :
    ofInitials? cs = some p := by
  cases p with
  | name =>
    rw [length?, nameLength?_eq] at h
    obtain ⟨c, rest, -, rfl, hStart, -⟩ := behind_eq_some h
    rw [ofInitials?, if_pos hStart]
  | number =>
    obtain ⟨k, hRun, -⟩ := Option.map_eq_some_iff.mp h
    rw [runLength?_eq] at hRun
    obtain ⟨c, rest, -, rfl, hDigit, -⟩ := behind_eq_some hRun
    rw [ofInitials?, isNameStart_of_isDigit hDigit, hDigit]
    rfl
  | blanks =>
    rw [length?, runLength?_eq] at h
    obtain ⟨c, rest, -, rfl, hBlank, -⟩ := behind_eq_some h
    obtain ⟨hStart, hDigit⟩ := Bool.or_eq_false_iff.mp (isNameChar_of_isBlank hBlank)
    rw [ofInitials?, hStart, hDigit, hBlank]
    rfl
  | lineComment =>
    rw [length?, lineCommentLength?.eq_def] at h
    split at h
    · rfl
    · cases h
  | blockComment =>
    rw [length?, blockCommentLength?.eq_def] at h
    split at h
    · rfl
    · cases h
  | string =>
    rw [length?, stringLength?.eq_def] at h
    split at h
    · rfl
    · cases h
  | char =>
    rw [length?, charLength?.eq_def] at h
    split at h
    · rfl
    · rfl
    · cases h
  | entryRoutine =>
    rw [length?, entryRoutineLength?.eq_def] at h
    split at h
    · rfl
    · cases h
  | header =>
    rw [length?, headerLength?.eq_def] at h
    split at h
    · rfl
    · cases h
  | symbol s => exact absurd rfl (hp s)

theorem symbol_of_length? {s : Symbol} (h : (symbol s).length? cs = some n) :
    s.text.toList <+: cs ∧ n = s.text.toList.length := by
  rw [length?_symbol, textLength?] at h
  split at h
  · cases h
    exact ⟨List.isPrefixOf_iff_prefix.mp ‹_›, rfl⟩
  · cases h

/-- No other pattern matches a text that begins with a symbol, but a comment begins with a
slash. -/
theorem comment_of_symbol {s : Symbol} (h : s.text.toList <+: cs) (hp : ofInitials? cs = some p) :
    s = .slash ∧ (p = lineComment ∨ p = blockComment) := by
  obtain ⟨rest, rfl⟩ := h
  cases s with
  | slash =>
    -- what is behind the slash decides between the comments
    refine ⟨rfl, ?_⟩
    replace hp : ofOpening? ('/' :: rest) = some p := hp
    rw [ofOpening?.eq_def] at hp
    split at hp
    case h_1 | h_2 | h_3 | h_4 =>
      rename_i hText
      cases hText
    · exact .inl (Option.some.inj hp).symm
    · exact .inr (Option.some.inj hp).symm
    · cases hp
  | _ => cases hp

theorem two_le_of_comment (hp : p = lineComment ∨ p = blockComment)
    (h : p.length? cs = some n) : 2 ≤ n := by
  rcases hp with rfl | rfl
  · rw [length?, lineCommentLength?_eq] at h
    obtain ⟨-, rest, k, -, -, hk, rfl⟩ := behind_eq_some h
    obtain ⟨-, -, m, -, -, -, rfl⟩ := behind_eq_some hk
    omega
  · rw [length?, blockCommentLength?_eq] at h
    obtain ⟨-, rest, k, -, -, hk, rfl⟩ := behind_eq_some h
    obtain ⟨-, -, m, -, -, -, rfl⟩ := behind_eq_some hk
    omega

/-! ### Lengths -/

def Outruns (p q : Pattern) : Prop :=
  ∀ {cs : List Char} {m n : Nat}, p.length? cs = some m → q.length? cs = some n → n < m

/-- Patterns that are not symbols do not match the same text. -/
theorem outruns_of_ne (h : p ≠ q) (hp : ∀ s, p ≠ symbol s) (hq : ∀ s, q ≠ symbol s) :
    p.Outruns q := by
  intro cs m n hm hn
  have hFirst := ofInitials?_of_length? hm hp
  rw [ofInitials?_of_length? hn hq] at hFirst
  exact absurd (Option.some.inj hFirst).symm h

theorem outruns_symbol (hp : ∀ s, p ≠ symbol s) (s : Symbol) : p.Outruns (symbol s) := by
  intro cs m n hm hn
  obtain ⟨hText, rfl⟩ := symbol_of_length? hn
  obtain ⟨rfl, hComment⟩ := comment_of_symbol hText (ofInitials?_of_length? hm hp)
  exact two_le_of_comment hComment hm

/-- Of two symbols that begin a text, the one that does not begin the other is longer. -/
theorem symbol_outruns {s t : Symbol} (h : ¬ s.text.toList <+: t.text.toList) :
    (symbol s).Outruns (symbol t) := by
  intro cs m n hm hn
  obtain ⟨hs, rfl⟩ := symbol_of_length? hm
  obtain ⟨ht, rfl⟩ := symbol_of_length? hn
  by_contra hLess
  exact h (List.prefix_of_prefix_length_le hs ht (Nat.le_of_not_lt hLess))

/-- Each pattern takes more than those that are tried after it. -/
theorem pairwise_all : all.Pairwise Outruns := by
  have hPlain : ∀ p ∈ [name, number, blanks, lineComment, blockComment, string, char,
      entryRoutine, header], ∀ s, p ≠ symbol s := by
    rintro p hp s rfl
    simp at hp
  rw [all, List.pairwise_append]
  refine ⟨?_, ?_, ?_⟩
  · refine List.Nodup.pairwise_of_forall_ne (by decide) fun p hp q hq hne => ?_
    exact outruns_of_ne hne (hPlain p hp) (hPlain q hq)
  · rw [List.pairwise_map]
    exact Symbol.pairwise_all.imp symbol_outruns
  · intro p hp q hq
    obtain ⟨s, -, rfl⟩ := List.mem_map.mp hq
    exact outruns_symbol (hPlain p hp) s

/-- The first pattern that matches takes more than every other one. -/
theorem lt_of_first? (h : first? cs = some (p, n)) (hq : q ≠ p) (hm : q.length? cs = some m) :
    m < n := by
  obtain ⟨before, found, after, hAll, hFound, hBefore⟩ := List.findSome?_eq_some_iff.mp h
  obtain ⟨k, hk, hPair⟩ := Option.map_eq_some_iff.mp hFound
  cases hPair
  have hMem := mem_all q
  rw [hAll, List.mem_append, List.mem_cons] at hMem
  -- those tried before `p` do not match, and those tried after it are outrun
  rcases hMem with hMem | rfl | hMem
  · have hNone := hBefore q hMem
    rw [hm] at hNone
    cases hNone
  · exact absurd rfl hq
  · have hPairs := pairwise_all
    rw [hAll, List.pairwise_append, List.pairwise_cons] at hPairs
    exact hPairs.2.1.1 q hMem hk hm

theorem exists_first? (h : p.length? cs = some n) : ∃ q m, first? cs = some (q, m) := by
  cases hFirst : first? cs with
  | some found => exact ⟨found.1, found.2, rfl⟩
  | none =>
    rw [length?_of_first?_eq_none hFirst p] at h
    cases h

/-! ### The longest match -/

/-- The longest match of some patterns at the start of a text, the first of those if there are
more. -/
def longest? (patterns : List Pattern) (cs : List Char) : Option (Pattern × Nat) :=
  (patterns.filterMap fun p => (p.length? cs).map fun n => (p, n)).argmax Prod.snd

theorem mem_matches_iff {patterns : List Pattern} :
    (p, n) ∈ patterns.filterMap (fun p => (p.length? cs).map fun n => (p, n)) ↔
      p ∈ patterns ∧ p.length? cs = some n := by
  simp only [List.mem_filterMap, Option.map_eq_some_iff, Prod.mk.injEq]
  constructor
  · rintro ⟨q, hq, k, hk, rfl, rfl⟩
    exact ⟨hq, hk⟩
  · rintro ⟨hp, hn⟩
    exact ⟨p, hp, n, hn, rfl, rfl⟩

/-- Patterns in any order have the longest match that is first in theirs. -/
theorem longest?_eq_first? {patterns : List Pattern} (h : patterns.Perm all) :
    longest? patterns = first? := by
  funext cs
  have hMem : ∀ p, p ∈ patterns := fun p => h.mem_iff.mpr (mem_all p)
  cases hLongest : longest? patterns cs with
  | none =>
    have hNone := List.argmax_eq_none.mp hLongest
    cases hFirst : first? cs with
    | none => rfl
    | some found =>
      have hFound := mem_matches_iff.mpr ⟨hMem found.1, length?_of_first? hFirst⟩
      rw [hNone] at hFound
      cases hFound
  | some found =>
    obtain ⟨p, n⟩ := found
    obtain ⟨-, hp⟩ := mem_matches_iff.mp (List.argmax_mem hLongest)
    obtain ⟨q, m, hFirst⟩ := exists_first? hp
    have hq := length?_of_first? hFirst
    have hLe : m ≤ n := List.le_of_mem_argmax (mem_matches_iff.mpr ⟨hMem q, hq⟩) hLongest
    -- another pattern than the first would have taken less
    obtain rfl : p = q := by
      by_contra hne
      exact Nat.not_lt_of_le hLe (lt_of_first? hFirst hne hp)
    cases hp.symm.trans hq
    exact hFirst.symm

end Pattern

/-! ### Tokenizers by a choice -/

/-- The tokens of the text at a cursor that is cut by `choose`, which says what to take at the start
of a text. -/
def scanBy (choose : List Char → Option (Pattern × Nat)) (cursor : Cursor) : List Char → Scan
  | [] => ⟨[], cursor.position, none⟩
  | c :: cs =>
    match choose (c :: cs) with
    | none => ⟨[], cursor.position, some c⟩
    | some (pattern, n) =>
      let found := c :: cs.take (n - 1)
      let taken := pattern.taken found
      let size := Text.byteLength taken
      let token := (pattern.token? found).map fun (kind, value) =>
        ⟨kind, value, cursor.spanOf size⟩
      (scanBy choose (cursor.advance size) (cs.drop (taken.length - 1))).cons token
termination_by cs => cs.length
decreasing_by simp only [List.length_drop, List.length_cons]; omega

def tokenizeBy (choose : List Char → Option (Pattern × Nat)) (source file : String) :
    Except Diagnostic (List Token) :=
  (scanBy choose (.start source file) source.toList).outcome

theorem scanBy_first? (cursor : Cursor) (cs : List Char) :
    scanBy Pattern.first? cursor cs = scan cursor cs := by
  fun_induction scan cursor cs with
  | case1 cursor => rw [scanBy]
  | case2 cursor c cs hFirst => rw [scanBy, hFirst]
  | case3 cursor c cs pattern n hFirst found taken size token ih =>
    rw [scanBy, hFirst]
    exact congrArg (Scan.cons token) ih

/-- A tokenizer that takes the longest match of the patterns, in any order, is `tokenize`. -/
theorem tokenizeBy_longest? {patterns : List Pattern} (h : patterns.Perm Pattern.all)
    (source file : String) :
    tokenizeBy (Pattern.longest? patterns) source file = tokenize source file := by
  rw [tokenizeBy, Pattern.longest?_eq_first? h, scanBy_first?, tokenize_eq_outcome]

/-- The bytes of a longer piece of a text are more. -/
theorem Text.byteLength_take_lt {cs : List Char} {m n : Nat} (hm : m < n) (hn : n ≤ cs.length) :
    byteLength (cs.take m) < byteLength (cs.take n) := by
  have hSplit : cs.take n = cs.take m ++ (cs.drop m).take (n - m) := by
    rw [← List.take_add, Nat.add_sub_cancel' hm.le]
  have hSome : (cs.drop m).take (n - m) ≠ [] := by
    intro hNil
    have hLength := congrArg List.length hNil
    rw [List.length_take, List.length_drop, List.length_nil] at hLength
    omega
  have := byteLength_pos hSome
  rw [hSplit, byteLength_append]
  omega

/-- The first match is the longest.  Where a pattern matches at what remains of a source, the first
one that does takes at least one byte, and more bytes than every other one that does.  The cursor
goes over the match and the scan goes on with what remains there; that a symbol brings its own text
does not matter, since this text is the match.  So the tokens of a source are those of the tokenizer
that takes the longest match among all patterns, whatever their order. -/
theorem tokenize_takes_longest :
    (∀ (cs : List Char) (pattern : Pattern) (n : Nat), pattern.length? cs = some n →
      ∃ first k, Pattern.first? cs = some (first, k) ∧
        (∀ other ≠ first, ∀ m, other.length? cs = some m →
          Text.byteLength (cs.take m) < Text.byteLength (cs.take k)) ∧
        0 < Text.byteLength (cs.take k) ∧
        (∀ s, first = .symbol s → cs.take k = s.sought ∧ s.text.toList = s.sought) ∧
        ∀ (cursor next : Cursor) (before : List Char), cursor.At before cs →
          next = cursor.advance (Text.byteLength (first.taken (cs.take k))) →
          next.At (before ++ cs.take k) (cs.drop k) ∧
          scan cursor cursor.remainder = (scan next next.remainder).cons
            ((first.token? (cs.take k)).map fun made => ⟨made.1, made.2,
              cursor.spanOf (Text.byteLength (cs.take k))⟩)) ∧
    ∀ patterns : List Pattern, patterns.Perm Pattern.all → ∀ source file,
      tokenize source file = tokenizeBy (Pattern.longest? patterns) source file := by
  refine ⟨fun cs pattern n h => ?_, fun patterns hPerm source file =>
    (tokenizeBy_longest? hPerm source file).symm⟩
  obtain ⟨first, k, hFirst⟩ := Pattern.exists_first? h
  have hTake := Pattern.length?_of_first? hFirst
  refine ⟨first, k, hFirst, fun other hOther m hm => ?_,
    Text.byteLength_pos (Pattern.take_ne_nil hTake), fun s hs => ?_, ?_⟩
  · exact Text.byteLength_take_lt (Pattern.lt_of_first? hFirst hOther hm)
      (first.cuts_length?.fits hTake)
  · subst hs
    obtain ⟨hText, rfl⟩ := Pattern.symbol_of_length? hTake
    rw [← List.prefix_iff_eq_take.mp hText]
    exact ⟨s.toList_text, s.toList_text⟩
  · rintro cursor next before hAt rfl
    rw [Pattern.taken_eq hTake]
    have hNext : (cursor.advance (Text.byteLength (cs.take k))).At (before ++ cs.take k)
        (cs.drop k) := by
      rw [← List.take_append_drop k cs] at hAt
      exact hAt.advance
    rw [hAt.remainder_eq, hNext.remainder_eq]
    exact ⟨hNext, scan_of_first? hFirst⟩

/-- Patterns in the opposite order: the symbol of division is tried before the comment that it
begins, and `+` before `+=`. -/
theorem tokenize_takes_longest_reversed :
    (∃ first k, Pattern.first? "/*=*/+=".toList = some (first, k) ∧ first ≠ .symbol .slash ∧
      1 < Text.byteLength ("/*=*/+=".toList.take k)) ∧
    ((Cursor.start "/*=*/+=" "a").advance 5).At "/*=*/".toList "+=".toList ∧
    tokenizeBy (Pattern.longest? Pattern.all.reverse) "/*=*/+=" "a" =
      .ok [⟨.symbol .plusEquals, "+=", Span.ofOffsets "a" 5 7⟩, Token.atEnd "a" 7] := by
  have hSlash : (Pattern.symbol .slash).length? "/*=*/+=".toList = some 1 := by
    cbv
  have hComment : Pattern.first? "/*=*/+=".toList = some (.blockComment, 5) := by
    cbv
  have hRun : tokenize "/*=*/+=" "a" =
      .ok [⟨.symbol .plusEquals, "+=", Span.ofOffsets "a" 5 7⟩, Token.atEnd "a" 7] := by
    cbv
  obtain ⟨hFirst, hTokens⟩ := tokenize_takes_longest
  obtain ⟨first, k, hk, hLonger, -, -, hStep⟩ := hFirst _ _ _ hSlash
  cases hk.symm.trans hComment
  have hne : Pattern.blockComment ≠ .symbol .slash := by decide
  refine ⟨⟨_, _, hComment, hne, hLonger _ hne.symm 1 hSlash⟩, ?_, ?_⟩
  · exact (hStep _ _ [] (.start "/*=*/+=" "a") rfl).1
  · rw [← hTokens _ (List.reverse_perm _)]
    exact hRun

end StageScript

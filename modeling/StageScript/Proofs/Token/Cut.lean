import Mathlib
import StageScript.Proofs.Token.Respace

/-!
# Sources that are cut short

A pattern may look far ahead: a string goes to its closing quote, a comment to its end, a header to
its closing bracket.  Still it only sees the piece that it takes.  If the text is cut off behind
this piece, it takes the same piece, and if it takes nothing, it takes nothing of a text that is
cut short either (`Pattern.Cuts`).  This holds of runs and of texts that tell their own end, and is
kept by what patterns are made of: a character before a pattern and a second pattern that may be
absent.

So a scan up to some place is not disturbed by what comes after it.  `tokenize_stops` says this of
the place where a source cannot be read.  The diagnostic tells this place by 32 bits, which is not
enough for every source (`tokenize_stops_overflow`).
-/

namespace StageScript

namespace Pattern

/-- A way to take a piece at the start of a text which does not depend on what is behind it. -/
structure Cuts (f : List Char → Option Nat) : Prop where
  fits {cs : List Char} {n : Nat} : f cs = some n → n ≤ cs.length
  cut {cs after : List Char} {n : Nat} : f (cs ++ after) = some n → n ≤ cs.length → f cs = some n
  absent {cs after : List Char} : f (cs ++ after) = none → f cs = none

def run (test : Char → Bool) (cs : List Char) : Option Nat := some (cs.takeWhile test).length

def behind (test : Char → Bool) (f : List Char → Option Nat) : List Char → Option Nat
  | [] => none
  | c :: cs => if test c then (f cs).map (1 + ·) else none

/-- What is taken first, and what is taken behind it, if anything. -/
def sequel (f g : List Char → Option Nat) (cs : List Char) : Option Nat :=
  (f cs).map fun n => n + (g (cs.drop n)).getD 0

theorem behind_eq_some {test : Char → Bool} {f : List Char → Option Nat} {cs : List Char} {n : Nat}
    (h : behind test f cs = some n) :
    ∃ c rest k, cs = c :: rest ∧ test c = true ∧ f rest = some k ∧ 1 + k = n := by
  cases cs with
  | nil => cases h
  | cons c rest =>
    rw [behind] at h
    split at h
    · obtain ⟨k, hk, hn⟩ := Option.map_eq_some_iff.mp h
      exact ⟨c, rest, k, rfl, ‹_›, hk, hn⟩
    · cases h

namespace Cuts

variable {f g : List Char → Option Nat}

/-- Pieces that tell their own end. -/
theorem of_text {P : List Char → Prop}
    (hTake : ∀ {cs n}, f cs = some n → ∃ text, P text ∧ text <+: cs)
    (hText : ∀ {text after}, P text → f (text ++ after) = some text.length) : Cuts f where
  fits := by
    intro cs n h
    obtain ⟨text, hP, after, rfl⟩ := hTake h
    rw [hText hP] at h
    cases h
    rw [List.length_append]
    exact Nat.le_add_right _ _
  cut := by
    intro cs after n h hn
    obtain ⟨text, hP, hPrefix⟩ := hTake h
    have hLength : n = text.length := by
      obtain ⟨rest, hRest⟩ := hPrefix
      rw [← hRest, hText hP] at h
      exact (Option.some.inj h).symm
    obtain ⟨rest, rfl⟩ :=
      List.prefix_of_prefix_length_le hPrefix (List.prefix_append cs after) (hLength ▸ hn)
    rw [hText hP, hLength]
  absent := by
    intro cs after h
    cases hf : f cs with
    | none => rfl
    | some n =>
      obtain ⟨text, hP, rest, rfl⟩ := hTake hf
      rw [List.append_assoc, hText hP] at h
      cases h

/-- The length of a piece that may be absent. -/
theorem getD_cut (hf : Cuts f) {cs after : List Char}
    (h : (f (cs ++ after)).getD 0 ≤ cs.length) : (f cs).getD 0 = (f (cs ++ after)).getD 0 := by
  cases hAll : f (cs ++ after) with
  | none => rw [hf.absent hAll]
  | some n =>
    rw [hAll] at h
    rw [hf.cut hAll h]

/-- A run in a text that is cut short ends where it did, or where the text ends. -/
theorem run (test : Char → Bool) : Cuts (run test) where
  fits := by
    intro cs n h
    cases h
    exact (List.takeWhile_prefix test).length_le
  cut := by
    intro cs after n h hn
    have hLength : ((cs ++ after).takeWhile test).length = n := Option.some.inj h
    have hLe := (List.takeWhile_prefix test (l := cs)).length_le
    rw [Pattern.run, Option.some.injEq]
    rw [List.takeWhile_append] at hLength
    split at hLength
    · rw [List.length_append] at hLength
      omega
    · exact hLength
  absent := by
    intro cs after h
    cases h

theorem behind (hf : Cuts f) (test : Char → Bool) : Cuts (behind test f) where
  fits := by
    intro cs n h
    obtain ⟨c, rest, k, rfl, -, hk, rfl⟩ := behind_eq_some h
    have := hf.fits hk
    rw [List.length_cons]
    omega
  cut := by
    intro cs after n h hn
    obtain ⟨d, rest, k, hText, hTest, hk, rfl⟩ := behind_eq_some h
    cases cs with
    | nil =>
      rw [List.length_nil] at hn
      omega
    | cons c cs =>
      cases hText
      rw [List.length_cons] at hn
      rw [Pattern.behind, if_pos hTest, hf.cut hk (by omega), Option.map_some]
  absent := by
    intro cs after h
    cases cs with
    | nil => rfl
    | cons c cs =>
      rw [List.cons_append, Pattern.behind] at h
      rw [Pattern.behind]
      split at h
      · rename_i hc
        rw [if_pos hc, hf.absent (Option.map_eq_none_iff.mp h), Option.map_none]
      · rename_i hc
        rw [if_neg hc]

theorem sequel (hf : Cuts f) (hg : Cuts g) : Cuts (sequel f g) where
  fits := by
    intro cs n h
    obtain ⟨k, hk, rfl⟩ := Option.map_eq_some_iff.mp h
    have hFirst := hf.fits hk
    cases hRest : g (cs.drop k) with
    | none => exact hFirst
    | some m =>
      have := hg.fits hRest
      rw [List.length_drop] at this
      rw [Option.getD_some]
      omega
  cut := by
    intro cs after n h hn
    obtain ⟨k, hk, rfl⟩ := Option.map_eq_some_iff.mp h
    have hFirst : k ≤ cs.length := by omega
    rw [List.drop_append_of_le_length hFirst] at hn
    -- the second piece may be absent in the whole text, and then it is absent here
    have hRest : (g (cs.drop k)).getD 0 = (g (cs.drop k ++ after)).getD 0 := by
      apply hg.getD_cut
      rw [List.length_drop]
      omega
    rw [Pattern.sequel, hf.cut hk hFirst, Option.map_some, hRest,
      List.drop_append_of_le_length hFirst]
  absent := by
    intro cs after h
    rw [Pattern.sequel, hf.absent (Option.map_eq_none_iff.mp h), Option.map_none]

end Cuts

/-! ### Patterns by their parts -/

/-- The text up to and with the bracket that closes the parameters of a header. -/
def bracketEnd? (cs : List Char) : Option Nat :=
  let n := (cs.takeWhile fun c => c ≠ ']' && c ≠ '\n').length
  if (cs.drop n).head? = some ']' then some (n + 1) else none

theorem behind_eq_none {c : Char} {f : List Char → Option Nat} {cs : List Char}
    (h : ∀ rest, cs = c :: rest → f rest = none) : behind (· = c) f cs = none := by
  cases cs with
  | nil => rfl
  | cons d rest =>
    rw [behind]
    split
    · rename_i hd
      rw [h rest (by rw [of_decide_eq_true hd]), Option.map_none]
    · rfl

theorem runLength?_eq (test : Char → Bool) : runLength? test = behind test (run test) := by
  funext cs
  cases cs with
  | nil => rfl
  | cons c cs =>
    by_cases hc : test c = true
    · rw [runLength?, behind, if_pos hc, List.takeWhile_cons_of_pos hc, run, Option.map_some,
        Nat.add_comm]
      rfl
    · rw [runLength?, behind, if_neg hc, List.takeWhile_cons_of_neg hc]
      rfl

theorem nameLength?_eq : nameLength? = behind isNameStart (run isNameChar) := by
  funext cs
  cases cs <;> rfl

theorem numberLength?_eq : numberLength? =
    sequel (runLength? Numeral.isDigit) (behind (· = '.') (runLength? Numeral.isDigit)) := by
  have hFraction : ∀ cs, fractionLength cs =
      (behind (· = '.') (runLength? Numeral.isDigit) cs).getD 0 := by
    intro cs
    rw [fractionLength.eq_def]
    split
    · rfl
    · rename_i hPoint
      rw [behind_eq_none fun rest hRest => absurd hRest (hPoint rest), Option.getD_none]
  funext cs
  simp only [numberLength?, sequel, hFraction]

theorem lineCommentLength?_eq :
    lineCommentLength? = behind (· = '/') (behind (· = '/') (run (· ≠ '\n'))) := by
  funext cs
  rw [lineCommentLength?.eq_def]
  split
  · rename_i cs
    show some (2 + (cs.takeWhile (· ≠ '\n')).length) =
      some (1 + (1 + (cs.takeWhile (· ≠ '\n')).length))
    rw [← Nat.add_assoc]
  · rename_i hOpen
    symm
    apply behind_eq_none
    rintro rest rfl
    apply behind_eq_none
    rintro rest rfl
    exact absurd rfl (hOpen rest)

theorem blockCommentLength?_eq :
    blockCommentLength? = behind (· = '/') (behind (· = '*') commentEnd?) := by
  funext cs
  rw [blockCommentLength?.eq_def]
  split
  · rename_i cs
    show (commentEnd? cs).map (2 + ·) = ((commentEnd? cs).map (1 + ·)).map (1 + ·)
    rw [Option.map_map]
    congr 1
    funext n
    exact Nat.add_assoc 1 1 n
  · rename_i hOpen
    symm
    apply behind_eq_none
    rintro rest rfl
    apply behind_eq_none
    rintro rest rfl
    exact absurd rfl (hOpen rest)

theorem stringLength?_eq : stringLength? = behind (· = '"') stringEnd? := by
  funext cs
  rw [stringLength?.eq_def]
  split
  · rfl
  · rename_i hOpen
    exact (behind_eq_none fun rest hRest => absurd hRest (hOpen rest)).symm

theorem entryRoutineLength?_eq : entryRoutineLength? = behind (· = '@') nameLength? := by
  funext cs
  rw [entryRoutineLength?.eq_def]
  split
  · rfl
  · rename_i hOpen
    exact (behind_eq_none fun rest hRest => absurd hRest (hOpen rest)).symm

theorem headerLength?_eq : headerLength? =
    behind (· = '#') (sequel nameLength? (behind (· = '[') bracketEnd?)) := by
  have hParams : ∀ cs, headerParamsLength cs = (behind (· = '[') bracketEnd? cs).getD 0 := by
    intro cs
    rw [headerParamsLength.eq_def]
    split
    · rename_i cs
      show _ = ((bracketEnd? cs).map (1 + ·)).getD 0
      rw [bracketEnd?]
      dsimp only
      split
      · rw [Option.map_some, Option.getD_some]
        omega
      · rfl
    · rename_i hOpen
      rw [behind_eq_none fun rest hRest => absurd hRest (hOpen rest), Option.getD_none]
  funext cs
  rw [headerLength?.eq_def]
  split
  · rename_i cs
    show _ = (sequel nameLength? (behind (· = '[') bracketEnd?) cs).map (1 + ·)
    simp only [hParams, sequel, Option.map_map]
    congr 1
    funext n
    exact Nat.add_assoc 1 n _
  · rename_i hOpen
    exact (behind_eq_none fun rest hRest => absurd hRest (hOpen rest)).symm

/-! ### Pieces that tell their own end -/

theorem commentEnd?_append {body after : List Char} (h : ¬ ['*', '/'] <:+: body ++ ['*']) :
    commentEnd? (body ++ '*' :: '/' :: after) = some (body.length + 2) := by
  induction body with
  | nil => rfl
  | cons c body ih =>
    rw [List.cons_append, List.infix_cons_iff, not_or] at h
    rw [List.cons_append, commentEnd?, ih h.2, Option.map_some, List.length_cons]
    · congr 1
      omega
    · rintro rest rfl hRest
      cases body with
      | nil => cases hRest
      | cons d body =>
        cases hRest
        exact h.1 ⟨body ++ ['*'], rfl⟩

theorem cuts_commentEnd? : Cuts commentEnd? := by
  refine .of_text (P := fun text => ∃ body, text = body ++ ['*', '/'] ∧
    ¬ ['*', '/'] <:+: body ++ ['*']) ?_ ?_
  · intro cs n h
    obtain ⟨body, hTake, hBody⟩ := comment_take h
    exact ⟨_, ⟨body, rfl, hBody⟩, hTake ▸ List.take_prefix n cs⟩
  · rintro _ after ⟨body, rfl, hBody⟩
    rw [List.append_assoc, List.length_append]
    exact commentEnd?_append hBody

theorem cuts_stringEnd? : Cuts stringEnd? := by
  refine .of_text (P := fun text => ∃ glyphs : List (List Char), (∀ g ∈ glyphs, Glyph '"' g) ∧
    text = glyphs.flatten ++ ['"']) ?_ ?_
  · intro cs n h
    obtain ⟨glyphs, hGlyphs, hTake⟩ := glyphs_take h
    exact ⟨_, ⟨glyphs, hGlyphs, rfl⟩, hTake ▸ List.take_prefix n cs⟩
  · rintro _ after ⟨glyphs, hGlyphs, rfl⟩
    rw [List.append_assoc, List.singleton_append, stringEnd?_append hGlyphs, List.length_append]
    rfl

theorem cuts_charLength? : Cuts charLength? := by
  refine .of_text (P := fun text => ∃ glyph, Glyph '\'' glyph ∧ text = '\'' :: (glyph ++ ['\'']))
    ?_ ?_
  · intro cs n h
    obtain ⟨glyph, hGlyph, hTake⟩ := glyph_take h
    exact ⟨_, ⟨glyph, hGlyph, rfl⟩, hTake ▸ List.take_prefix n cs⟩
  · rintro _ after ⟨glyph, hGlyph, rfl⟩
    rw [List.cons_append, List.append_assoc, List.singleton_append, charLength?_append hGlyph,
      List.length_cons, List.length_append]
    rfl

theorem cuts_bracketEnd? : Cuts bracketEnd? := by
  refine .of_text (P := fun text => ∃ inner, (∀ c ∈ inner, c ≠ ']' ∧ c ≠ '\n') ∧
    text = inner ++ [']']) ?_ ?_
  · intro cs n h
    rw [bracketEnd?] at h
    split at h
    · rename_i hClose
      obtain ⟨rest, hRest⟩ := List.head?_eq_some_iff.mp hClose
      refine ⟨_, ⟨cs.takeWhile fun c => c ≠ ']' && c ≠ '\n', fun c hc => ?_, rfl⟩, rest, ?_⟩
      · simpa using List.mem_takeWhile_imp hc
      · rw [List.append_assoc, List.singleton_append, ← hRest]
        nth_rewrite 1 [List.prefix_iff_eq_take.mp (List.takeWhile_prefix _)]
        exact List.take_append_drop _ cs
    · cases h
  · rintro _ after ⟨inner, hInner, rfl⟩
    have hRun : (inner ++ ']' :: after).takeWhile (fun c => c ≠ ']' && c ≠ '\n') = inner := by
      apply takeWhile_run
      · simpa using hInner
      · intro c hc
        cases hc
        rfl
    rw [List.append_assoc, List.singleton_append, bracketEnd?]
    simp only [hRun, List.drop_left, List.head?_cons, if_pos, List.length_append,
      List.length_singleton]

theorem cuts_textLength? (text : List Char) : Cuts (textLength? text) := by
  refine .of_text (P := (· = text)) ?_ ?_
  · intro cs n h
    rw [textLength?] at h
    split at h
    · exact ⟨text, rfl, List.isPrefixOf_iff_prefix.mp ‹_›⟩
    · cases h
  · rintro _ after rfl
    rw [textLength?, if_pos (List.isPrefixOf_iff_prefix.mpr (List.prefix_append _ _))]

/-- No pattern sees more than the piece that it takes. -/
theorem cuts_length? (p : Pattern) : Cuts p.length? := by
  have hDigits : Cuts (runLength? Numeral.isDigit) := by
    rw [runLength?_eq]
    exact (Cuts.run _).behind _
  have hName : Cuts nameLength? := by
    rw [nameLength?_eq]
    exact (Cuts.run _).behind _
  cases p with
  | name => exact hName
  | number =>
    rw [length?, numberLength?_eq]
    exact hDigits.sequel (hDigits.behind _)
  | blanks =>
    rw [length?, runLength?_eq]
    exact (Cuts.run _).behind _
  | lineComment =>
    rw [length?, lineCommentLength?_eq]
    exact ((Cuts.run _).behind _).behind _
  | blockComment =>
    rw [length?, blockCommentLength?_eq]
    exact (cuts_commentEnd?.behind _).behind _
  | string =>
    rw [length?, stringLength?_eq]
    exact cuts_stringEnd?.behind _
  | char => exact cuts_charLength?
  | entryRoutine =>
    rw [length?, entryRoutineLength?_eq]
    exact hName.behind _
  | header =>
    rw [length?, headerLength?_eq]
    exact (hName.sequel (cuts_bracketEnd?.behind _)).behind _
  | symbol s => exact cuts_textLength? _

theorem mem_all (p : Pattern) : p ∈ all := by
  rw [all, List.mem_append]
  cases p with
  | symbol s => exact .inr (List.mem_map_of_mem s.mem_all)
  | _ => exact .inl (by decide)

theorem length?_of_first?_eq_none {cs : List Char} (h : first? cs = none) (p : Pattern) :
    p.length? cs = none :=
  Option.map_eq_none_iff.mp (List.findSome?_eq_none_iff.mp h p p.mem_all)

/-- The first pattern that matches is the same if the text is cut off behind what it takes. -/
theorem first?_cut {cs after : List Char} {p : Pattern} {n : Nat}
    (h : first? (cs ++ after) = some (p, n)) (hn : n ≤ cs.length) : first? cs = some (p, n) := by
  obtain ⟨prior, found, later, hAll, hFound, hPrior⟩ := List.findSome?_eq_some_iff.mp h
  obtain ⟨k, hk, hPair⟩ := Option.map_eq_some_iff.mp hFound
  cases hPair
  refine first?_of_prior prior later hAll (fun q hq => ?_) (p.cuts_length?.cut hk hn)
  exact q.cuts_length?.absent (Option.map_eq_none_iff.mp (hPrior q hq))

end Pattern

/-! ### Where a scan stops -/

/-- Only the place of the cursor and the name of its source matter to a scan. -/
theorem scan_congr {cursor other : Cursor} (cs : List Char) (hOffset : cursor.offset = other.offset)
    (hFile : cursor.file = other.file) : scan cursor cs = scan other cs := by
  induction cursor, cs using scan_induction generalizing other with
  | nil cursor => rw [scan, scan, Cursor.position, Cursor.position, hOffset, hFile]
  | stuck cursor c cs hFirst =>
    rw [scan_of_first?_eq_none hFirst, scan_of_first?_eq_none hFirst, Cursor.position,
      Cursor.position, hOffset, hFile]
  | step cursor cs pattern n hFirst ih =>
    have hNext := @ih (other.advance (Text.byteLength (cs.take n)))
      (congrArg (· + Text.byteLength (cs.take n)) hOffset) hFile
    rw [scan_of_first? hFirst, scan_of_first? hFirst, hNext, Cursor.spanOf, Cursor.spanOf, hOffset,
      hFile]

/-- A scan stops at a character where no pattern matches.  The text up to there is read to its
end, with the same tokens. -/
theorem scan_stops {cursor : Cursor} {cs : List Char} {c : Char}
    (h : (scan cursor cs).unread = some c) :
    ∃ before after, cs = before ++ c :: after ∧
      (scan cursor cs).stop = (cursor.advance (Text.byteLength before)).position ∧
      (∀ p : Pattern, p.length? (c :: after) = none) ∧
      scan cursor before = { scan cursor cs with unread := none } := by
  induction cursor, cs using scan_induction with
  | nil cursor =>
    rw [scan] at h
    cases h
  | stuck cursor d cs hFirst =>
    rw [scan_of_first?_eq_none hFirst] at h ⊢
    cases h
    refine ⟨[], cs, rfl, rfl, Pattern.length?_of_first?_eq_none hFirst, ?_⟩
    rw [scan]
  | step cursor cs pattern n hFirst ih =>
    have hStep : scan cursor cs = _ := scan_of_first? hFirst
    rw [hStep] at h ⊢
    obtain ⟨before, after, hRest, hStop, hNone, hScan⟩ := ih h
    have hText : cs.take n ++ before ++ c :: after = cs := by
      rw [List.append_assoc, ← hRest, List.take_append_drop]
    have hTake : (cs.take n).length = n :=
      List.length_take_of_le (pattern.cuts_length?.fits (Pattern.length?_of_first? hFirst))
    -- what is taken here lies before the place, so it is taken of the shorter text too
    have hBefore : Pattern.first? (cs.take n ++ before) = some (pattern, n) := by
      refine Pattern.first?_cut (hText.symm ▸ hFirst) ?_
      rw [List.length_append, hTake]
      exact Nat.le_add_right _ _
    refine ⟨cs.take n ++ before, after, hText.symm, ?_, hNone, ?_⟩
    · rw [Text.byteLength_append, ← Cursor.advance_advance]
      exact hStop
    · rw [scan_of_first? hBefore, List.take_left' hTake, List.drop_left' hTake, hScan]
      rfl

def Symbol.singles : List Char :=
  ['(', ')', '[', ']', '\x7b', '\x7d', '=', '!', '<', '>', ';', ',', '+', '-', '*', '/', '%', '^',
    '~']

theorem Symbol.exists_of_mem_singles {c : Char} (h : c ∈ singles) :
    ∃ s : Symbol, s.text.toList = [c] := by
  revert c
  simp only [singles, List.forall_mem_cons]
  exact ⟨⟨openParen, rfl⟩, ⟨closeParen, rfl⟩, ⟨openBracket, rfl⟩, ⟨closeBracket, rfl⟩,
    ⟨openCurly, rfl⟩, ⟨closeCurly, rfl⟩, ⟨assign, rfl⟩, ⟨bang, rfl⟩, ⟨less, rfl⟩, ⟨greater, rfl⟩,
    ⟨semicolon, rfl⟩, ⟨comma, rfl⟩, ⟨plus, rfl⟩, ⟨dash, rfl⟩, ⟨star, rfl⟩, ⟨slash, rfl⟩,
    ⟨percent, rfl⟩, ⟨caret, rfl⟩, ⟨tilde, rfl⟩, List.forall_mem_nil _⟩

/-- Characters that begin some token or are skipped are no place to stop at. -/
theorem Pattern.unread_of_length? {c : Char} {after : List Char}
    (h : ∀ p : Pattern, p.length? (c :: after) = none) :
    Text.isBlank c = false ∧ isNameChar c = false ∧ c ∉ Symbol.singles := by
  have hRun : ∀ {test : Char → Bool}, runLength? test (c :: after) = none → test c = false := by
    intro test hNone
    rw [runLength?_eq, behind] at hNone
    split at hNone
    · cases hNone
    · rename_i hc
      exact Bool.not_eq_true _ ▸ hc
  refine ⟨hRun (h .blanks), ?_, fun hc => ?_⟩
  · rw [isNameChar, hRun (Option.map_eq_none_iff.mp (h .number)), Bool.or_false]
    have hName := h .name
    rw [length?, nameLength?] at hName
    split at hName
    · cases hName
    · rename_i hc
      exact Bool.not_eq_true _ ▸ hc
  · obtain ⟨s, hText⟩ := Symbol.exists_of_mem_singles hc
    have hSymbol := h (.symbol s)
    rw [length?_symbol, hText] at hSymbol
    simp [textLength?] at hSymbol

/-- A source that cannot be read is read up to the first bad place.  There is a character, the one
that the diagnostic names, at which no pattern matches; it is no blank, no letter or digit of a
name and none of the symbols of one character.  The source before it can be read, and its tokens
are those that were read before the tokenizer stopped.  The diagnostic tells where the place is, if
this is within the first 2^32 bytes. -/
theorem tokenize_stops {source file : String} {d : Diagnostic}
    (h : tokenize source file = .error d) :
    ∃ before c after, source.toList = before ++ c :: after ∧
      d = ⟨.unrecognised (String.ofList [c]), .behind file (Text.byteLength before)⟩ ∧
      (d.position.offset = Text.byteLength before ↔ Text.byteLength before < 2 ^ 32) ∧
      Text.byteLength before < source.utf8ByteSize ∧
      String.Pos.Raw.IsValid source ⟨Text.byteLength before⟩ ∧
      (∀ p ∈ Pattern.all, p.length? (c :: after) = none) ∧
      tokenize (String.ofList before) file =
        .ok ((scan (.start source file) source.toList).tokens ++
          [Token.atEnd file (Text.byteLength before)]) ∧
      Text.isBlank c = false ∧ Pattern.isNameChar c = false ∧ c ∉ Symbol.singles := by
  rw [tokenize_eq_outcome, Scan.outcome] at h
  split at h
  · rename_i c hUnread
    cases h
    obtain ⟨before, after, hSource, hStop, hNone, hScan⟩ := scan_stops hUnread
    have hPlace : (scan (.start source file) source.toList).stop =
        .behind file (Text.byteLength before) := by
      rw [hStop, Cursor.position, Cursor.advance, Cursor.start, Nat.zero_add]
    have hChar := Text.byteLength_pos (List.cons_ne_nil c after)
    have hBefore : scan (.start (String.ofList before) file) (String.ofList before).toList =
        { scan (.start source file) source.toList with unread := none } := by
      rw [String.toList_ofList, ← hScan]
      exact scan_congr before rfl rfl
    refine ⟨before, c, after, hSource, by rw [hPlace], ?_, ?_, Text.isValid_of_eq hSource rfl,
      fun p _ => hNone p, ?_, Pattern.unread_of_length? hNone⟩
    · rw [hPlace]
      exact narrow_eq_self_iff
    · rw [← Text.byteLength_toList, hSource, Text.byteLength_append]
      omega
    · rw [tokenize_of_unread (by rw [hBefore]), hBefore, ← Text.byteLength_toList,
        String.toList_ofList]
  · cases h

/-- A header, a comment and a string that are opened and not closed: the string is the first bad
place. -/
theorem tokenize_stops_string : ∃ before c after,
    tokenize "#a[1 /*\"é" "a" = .error ⟨.unrecognised "\"", ⟨7, "a"⟩⟩ ∧
    "#a[1 /*\"é".toList = before ++ c :: after ∧ Text.byteLength before = 7 ∧
    (∀ p ∈ Pattern.all, p.length? (c :: after) = none) ∧
    tokenize (String.ofList before) "a" = .ok [⟨.header, "a", Span.ofOffsets "a" 0 2⟩,
      ⟨.symbol .openBracket, "[", Span.ofOffsets "a" 2 3⟩,
      ⟨.number, "1", Span.ofOffsets "a" 3 4⟩, ⟨.symbol .slash, "/", Span.ofOffsets "a" 5 6⟩,
      ⟨.symbol .star, "*", Span.ofOffsets "a" 6 7⟩, Token.atEnd "a" 7] := by
  have hRun : tokenize "#a[1 /*\"é" "a" = .error ⟨.unrecognised "\"", ⟨7, "a"⟩⟩ := by
    cbv
  obtain ⟨before, c, after, hSource, -, hPlace, hLess, -, hNone, hBefore, -⟩ := tokenize_stops hRun
  have hTokens : (scan (.start "#a[1 /*\"é" "a") "#a[1 /*\"é".toList).tokens = [
      ⟨.header, "a", Span.ofOffsets "a" 0 2⟩,
      ⟨.symbol .openBracket, "[", Span.ofOffsets "a" 2 3⟩,
      ⟨.number, "1", Span.ofOffsets "a" 3 4⟩, ⟨.symbol .slash, "/", Span.ofOffsets "a" 5 6⟩,
      ⟨.symbol .star, "*", Span.ofOffsets "a" 6 7⟩] := by
    cbv
  have hSeven : Text.byteLength before = 7 := (hPlace.mpr (hLess.trans (by decide))).symm
  rw [hTokens, hSeven] at hBefore
  exact ⟨before, c, after, hRun, hSource, hSeven, hNone, hBefore⟩

/-- Behind 2^32 blanks the bad place is told to be at the start, where a blank is. -/
theorem tokenize_stops_overflow :
    tokenize (Text.padded (2 ^ 32) ['?']) "a" = .error ⟨.unrecognised "?", ⟨0, "a"⟩⟩ ∧
    (Text.padded (2 ^ 32) ['?']).toList.head? = some ' ' := by
  have hFirst : Pattern.first? ['?'] = none := by
    cbv
  have hHead : ∀ c ∈ ['?'].head?, Text.isBlank c = false := by
    intro c hc
    cases hc
    rfl
  constructor
  · rw [tokenize_eq_outcome, scan_padded "a" hHead, scan_of_first?_eq_none hFirst]
    rfl
  · rw [Text.toList_padded, show 2 ^ 32 = (2 ^ 32 - 1) + 1 from rfl, List.replicate_succ]
    rfl

end StageScript

import Mathlib
import StageScript.Proofs.Token.Literal

/-!
# The texts of tokens

`Lexeme kind value text` says which texts are tokens, of which kind and of which value.  It is
a grammar of single tokens: it knows no patterns, no order of trying them and nothing of what
stands after a token.

* `lexeme_of_token?`: what a pattern takes and makes a token of is a lexeme.
* `Lexeme.first?`: before a blank or the end, the first pattern that matches takes a lexeme as a
  whole and makes the right token of it.
-/

namespace StageScript

/-! ### Classes of characters -/

theorem Text.isBlank_toNat {c : Char} (h : isBlank c = true) : c.toNat ≤ 32 ∨ 133 ≤ c.toNat := by
  simp only [isBlank, inRanges, blankRanges, List.any_cons, List.any_nil, Bool.or_false,
    Bool.or_eq_true, Bool.and_eq_true, decide_eq_true_eq] at h
  omega

theorem Numeral.isDigit_toNat {c : Char} (h : isDigit c = true) :
    48 ≤ c.toNat ∧ c.toNat ≤ 57 := by
  simp only [isDigit, Bool.and_eq_true, decide_eq_true_eq, Char.le_def,
    UInt32.le_iff_toNat_le] at h
  exact h

namespace Pattern

theorem isNameStart_toNat {c : Char} (h : isNameStart c = true) :
    65 ≤ c.toNat ∧ c.toNat ≤ 122 := by
  simp only [isNameStart, Bool.or_eq_true, Bool.and_eq_true, decide_eq_true_eq, Char.le_def,
    UInt32.le_iff_toNat_le] at h
  rcases h with (⟨hLow, hHigh⟩ | ⟨hLow, hHigh⟩) | rfl
  · exact ⟨le_trans (by decide) hLow, hHigh⟩
  · exact ⟨hLow, le_trans hHigh (by decide)⟩
  · decide

theorem isNameChar_toNat {c : Char} (h : isNameChar c = true) :
    48 ≤ c.toNat ∧ c.toNat ≤ 122 := by
  rw [isNameChar, Bool.or_eq_true] at h
  rcases h with h | h
  · have := isNameStart_toNat h
    omega
  · have := Numeral.isDigit_toNat h
    omega

theorem isNameStart_of_isDigit {c : Char} (h : Numeral.isDigit c = true) :
    isNameStart c = false := by
  by_contra hc
  have hStart := isNameStart_toNat (by simpa using hc)
  have hDigit := Numeral.isDigit_toNat h
  omega

theorem isNameChar_of_isBlank {c : Char} (h : Text.isBlank c = true) : isNameChar c = false := by
  by_contra hc
  have hName := isNameChar_toNat (by simpa using hc)
  have hBlank := Text.isBlank_toNat h
  omega

theorem isBlank_of_isNameChar {c : Char} (h : isNameChar c = true) : Text.isBlank c = false := by
  by_contra hBlank
  rw [isNameChar_of_isBlank (by simpa using hBlank)] at h
  cases h

theorem isDigit_of_isBlank {c : Char} (h : Text.isBlank c = true) : Numeral.isDigit c = false :=
  (Bool.or_eq_false_iff.mp (isNameChar_of_isBlank h)).2

/-! ### Lexemes -/

def isName : List Char → Bool
  | [] => false
  | c :: cs => isNameStart c && cs.all isNameChar

/-- One character as it stands between quotes: itself or an escape.  A backslash does not escape
a newline. -/
inductive Glyph (quote : Char) : List Char → Prop
  | plain {c : Char} (hQuote : c ≠ quote) (hEscape : c ≠ '\\') : Glyph quote [c]
  | escape {c : Char} (hLine : c ≠ '\n') : Glyph quote ['\\', c]

/-- What may stand after the name of a header: nothing, or brackets that close on the line. -/
inductive HeaderParams : List Char → Prop
  | absent : HeaderParams []
  | brackets {inner : List Char} (h : ∀ c ∈ inner, c ≠ ']' ∧ c ≠ '\n') :
      HeaderParams ('[' :: (inner ++ [']']))

end Pattern

open Pattern in
/-- The text is a token of this kind and this value. -/
inductive Lexeme : TokenKind → String → List Char → Prop
  | identifier {name : List Char} (h : isName name = true)
      (hFree : String.ofList name ∉ Keyword.spellings.map Prod.fst) :
      Lexeme .identifier (String.ofList name) name
  | keyword {word : String} {k : Keyword} (h : (word, k) ∈ Keyword.spellings) :
      Lexeme (.keyword k) word word.toList
  | number {whole fraction : List Char} (hSome : whole ≠ [])
      (hDigits : ∀ c ∈ whole, Numeral.isDigit c = true) (hFraction : Fraction fraction) :
      Lexeme .number (String.ofList (whole ++ fraction)) (whole ++ fraction)
  | string {glyphs : List (List Char)} (h : ∀ g ∈ glyphs, Glyph '"' g) :
      Lexeme .string (String.ofList (unescape glyphs.flatten)) ('"' :: (glyphs.flatten ++ ['"']))
  | char {glyph : List Char} (h : Glyph '\'' glyph) :
      Lexeme .char (String.ofList (unescape glyph)) ('\'' :: (glyph ++ ['\'']))
  | entryRoutine {name : List Char} (h : isName name = true) :
      Lexeme .entryRoutine (String.ofList name) ('@' :: name)
  | header {name params : List Char} (h : isName name = true) (hParams : HeaderParams params) :
      Lexeme .header (String.ofList (name ++ params)) ('#' :: (name ++ params))
  | symbol (s : Symbol) : Lexeme (.symbol s) s.text s.text.toList

/-! ### What patterns take -/

namespace Pattern

theorem exists_cons_of_isName {name : List Char} (h : isName name = true) :
    ∃ c cs, name = c :: cs ∧ Text.isBlank c = false := by
  cases name with
  | nil => cases h
  | cons c cs =>
    rw [isName, Bool.and_eq_true] at h
    refine ⟨c, cs, rfl, isBlank_of_isNameChar ?_⟩
    rw [isNameChar, h.1, Bool.true_or]

theorem isName_take {cs : List Char} {n : Nat} (h : nameLength? cs = some n) :
    isName (cs.take n) = true := by
  cases cs with
  | nil => cases h
  | cons c cs =>
    rw [nameLength?] at h
    split at h
    · rename_i hStart
      cases h
      rw [Nat.add_comm, List.take_succ_cons,
        ← List.prefix_iff_eq_take.mp (List.takeWhile_prefix isNameChar), isName, hStart,
        Bool.true_and]
      exact List.all_takeWhile
    · cases h

theorem glyphs_take {cs : List Char} {n : Nat} (h : stringEnd? cs = some n) :
    ∃ glyphs : List (List Char), (∀ g ∈ glyphs, Glyph '"' g) ∧
      cs.take n = glyphs.flatten ++ ['"'] := by
  fun_induction stringEnd? cs generalizing n with
  | case1 => cases h
  | case2 =>
    cases h
    exact ⟨[], List.forall_mem_nil _, rfl⟩
  | case3 => cases h
  | case4 => cases h
  | case5 c cs hLine ih =>
    obtain ⟨k, hk, rfl⟩ := Option.map_eq_some_iff.mp h
    obtain ⟨glyphs, hGlyphs, hTake⟩ := ih hk
    refine ⟨['\\', c] :: glyphs, List.forall_mem_cons.mpr ⟨.escape hLine, hGlyphs⟩, ?_⟩
    rw [Nat.add_comm, List.take_succ_cons, List.take_succ_cons, hTake]
    rfl
  | case6 c cs hQuote hLone hEscape ih =>
    obtain ⟨k, hk, rfl⟩ := Option.map_eq_some_iff.mp h
    obtain ⟨glyphs, hGlyphs, hTake⟩ := ih hk
    have hPlain : c ≠ '\\' := by
      rintro rfl
      cases cs with
      | nil => exact hLone rfl rfl
      | cons d cs => exact hEscape d cs rfl rfl
    refine ⟨[c] :: glyphs, List.forall_mem_cons.mpr ⟨.plain hQuote hPlain, hGlyphs⟩, ?_⟩
    rw [Nat.add_comm, List.take_succ_cons, hTake]
    rfl

theorem glyph_take {cs : List Char} {n : Nat} (h : charLength? cs = some n) :
    ∃ glyph, Glyph '\'' glyph ∧ cs.take n = '\'' :: (glyph ++ ['\'']) := by
  rw [charLength?.eq_def] at h
  split at h
  · split at h
    · cases h
    · rename_i hLine
      cases h
      exact ⟨_, .escape hLine, rfl⟩
  · split at h
    · cases h
    · rename_i hc
      cases h
      rw [not_or] at hc
      exact ⟨_, .plain hc.1 hc.2, rfl⟩
  · cases h

theorem headerParams_take (cs : List Char) : HeaderParams (cs.take (headerParamsLength cs)) := by
  rw [headerParamsLength.eq_def]
  split
  · rename_i cs
    dsimp only
    split
    · rename_i hClose
      obtain ⟨rest, hDrop⟩ := List.head?_eq_some_iff.mp hClose
      rw [List.take_succ_cons, List.take_add, hDrop,
        ← List.prefix_iff_eq_take.mp (List.takeWhile_prefix _)]
      refine .brackets fun c hc => ?_
      simpa using List.mem_takeWhile_imp hc
    · exact .absent
  · exact .absent

end Pattern

theorem Keyword.mem_spellings_of_eq_some {word : String} {k : Keyword}
    (h : ofSpelling? word = some k) : (word, k) ∈ spellings := by
  obtain ⟨before, after, hSplit, -⟩ := List.lookup_eq_some_iff.mp h
  rw [hSplit]
  exact List.mem_append_right before List.mem_cons_self

theorem Keyword.ofSpelling?_eq_none_iff {word : String} :
    ofSpelling? word = none ↔ word ∉ spellings.map Prod.fst := by
  rw [ofSpelling?, List.lookup_eq_none_iff]
  simp only [bne_iff_ne, List.mem_map, not_exists, not_and]
  exact ⟨fun h p hp he => h p hp he.symm, fun h p hp he => h p hp he.symm⟩

/-- What does not go on the text before it: nothing, or a text that begins with a blank. -/
def Text.Apart (after : List Char) : Prop := ∀ c ∈ after.head?, isBlank c = true

namespace Pattern

variable {cs text after : List Char} {n : Nat} {kind : TokenKind} {value : String}

theorem lexeme_of_name (h : isName text = true) :
    Lexeme (TokenKind.ofWord (String.ofList text)) (String.ofList text) text := by
  rw [TokenKind.ofWord]
  split
  · rename_i k hk
    have hWord := Lexeme.keyword (Keyword.mem_spellings_of_eq_some hk)
    rwa [String.toList_ofList] at hWord
  · exact .identifier h (Keyword.ofSpelling?_eq_none_iff.mp ‹_›)

/-- What a pattern takes and makes a token of is a lexeme. -/
theorem lexeme_of_token? {pattern : Pattern} (h : pattern.length? cs = some n)
    (hToken : pattern.token? (cs.take n) = some (kind, value)) :
    Lexeme kind value (cs.take n) := by
  cases pattern with
  | name =>
    cases hToken
    exact lexeme_of_name (isName_take h)
  | number =>
    cases hToken
    obtain ⟨whole, fraction, hTake, hSome, hDigits, hFraction⟩ := numberLength?_eq_some h
    rw [hTake]
    exact .number hSome hDigits hFraction
  | blanks | lineComment | blockComment => cases hToken
  | string =>
    cases hToken
    rw [length?, stringLength?.eq_def] at h
    split at h
    · rename_i cs
      obtain ⟨k, hk, rfl⟩ := Option.map_eq_some_iff.mp h
      obtain ⟨glyphs, hGlyphs, hTake⟩ := glyphs_take hk
      rw [Nat.add_comm, List.take_succ_cons, hTake, inside, List.drop_one, List.tail_cons,
        List.dropLast_concat]
      exact .string hGlyphs
    · cases h
  | char =>
    cases hToken
    obtain ⟨glyph, hGlyph, hTake⟩ := glyph_take h
    rw [hTake, inside, List.drop_one, List.tail_cons, List.dropLast_concat]
    exact .char hGlyph
  | entryRoutine =>
    cases hToken
    rw [length?, entryRoutineLength?.eq_def] at h
    split at h
    · obtain ⟨k, hk, rfl⟩ := Option.map_eq_some_iff.mp h
      rw [Nat.add_comm, List.take_succ_cons, List.drop_one, List.tail_cons]
      exact .entryRoutine (isName_take hk)
    · cases h
  | header =>
    cases hToken
    rw [length?, headerLength?.eq_def] at h
    split at h
    · obtain ⟨k, hk, rfl⟩ := Option.map_eq_some_iff.mp h
      rw [Nat.add_assoc, Nat.add_comm, List.take_succ_cons, List.drop_one, List.tail_cons,
        List.take_add]
      exact .header (isName_take hk) (headerParams_take _)
    · cases h
  | symbol s =>
    cases hToken
    rw [length?_symbol, textLength?] at h
    split at h
    · rename_i hText
      cases h
      rw [← List.prefix_iff_eq_take.mp (List.isPrefixOf_iff_prefix.mp hText)]
      exact .symbol s
    · cases h

/-! ### Lexemes that stand apart -/

theorem takeWhile_run {test : Char → Bool} (h : ∀ c ∈ text, test c = true)
    (hAfter : ∀ c ∈ after.head?, test c = false) : (text ++ after).takeWhile test = text := by
  have hNil : after.takeWhile test = [] := by
    cases after with
    | nil => rfl
    | cons c after => simp [hAfter c rfl]
  rw [List.takeWhile_append_of_pos h, hNil, List.append_nil]

theorem runLength?_append {test : Char → Bool} (hSome : text ≠ []) (h : ∀ c ∈ text, test c = true)
    (hAfter : ∀ c ∈ after.head?, test c = false) :
    runLength? test (text ++ after) = some text.length := by
  obtain ⟨c, cs, rfl⟩ := List.exists_cons_of_ne_nil hSome
  rw [runLength?, takeWhile_run h hAfter]
  rfl

theorem nameLength?_append (h : isName text = true)
    (hAfter : ∀ c ∈ after.head?, isNameChar c = false) :
    nameLength? (text ++ after) = some text.length := by
  cases text with
  | nil => cases h
  | cons c cs =>
    rw [isName, Bool.and_eq_true, List.all_eq_true] at h
    rw [List.cons_append, nameLength?, if_pos h.1, takeWhile_run h.2 hAfter, List.length_cons,
      Nat.add_comm]

theorem fractionLength_append (h : Fraction text) (hAfter : Text.Apart after) :
    fractionLength (text ++ after) = text.length := by
  cases h with
  | absent =>
    rw [List.nil_append, fractionLength.eq_def]
    split
    · cases hAfter '.' rfl
    · rfl
  | point hSome hDigits =>
    have hRun := runLength?_append hSome hDigits fun c hc => isDigit_of_isBlank (hAfter c hc)
    rw [List.cons_append, fractionLength, hRun, Option.map_some, Option.getD_some,
      List.length_cons, Nat.add_comm]

theorem numberLength?_append {whole fraction : List Char} (hSome : whole ≠ [])
    (hDigits : ∀ c ∈ whole, Numeral.isDigit c = true) (hFraction : Fraction fraction)
    (hAfter : Text.Apart after) :
    numberLength? (whole ++ fraction ++ after) = some (whole ++ fraction).length := by
  have hRest : ∀ c ∈ (fraction ++ after).head?, Numeral.isDigit c = false := by
    cases hFraction with
    | absent => exact fun c hc => isDigit_of_isBlank (hAfter c hc)
    | point =>
      intro c hc
      cases hc
      rfl
  rw [numberLength?, List.append_assoc, runLength?_append hSome hDigits hRest, Option.map_some,
    List.drop_left, fractionLength_append hFraction hAfter, List.length_append]

theorem stringEnd?_append {glyphs : List (List Char)} (h : ∀ g ∈ glyphs, Glyph '"' g) :
    stringEnd? (glyphs.flatten ++ '"' :: after) = some (glyphs.flatten.length + 1) := by
  induction glyphs with
  | nil => rfl
  | cons g glyphs ih =>
    obtain ⟨hGlyph, hGlyphs⟩ := List.forall_mem_cons.mp h
    rw [List.flatten_cons, List.append_assoc, List.length_append]
    cases hGlyph with
    | plain hQuote hEscape =>
      rw [List.singleton_append, stringEnd?, ih hGlyphs]
      · simp only [Option.map_some, List.length_singleton, Nat.add_assoc]
      · exact hQuote
      · exact fun hc => absurd hc hEscape
      · exact fun _ _ hc => absurd hc hEscape
    | escape hLine =>
      rw [List.cons_append, List.singleton_append, stringEnd?, if_neg hLine, ih hGlyphs]
      rw [Option.map_some, ← Nat.add_assoc]
      rfl

theorem charLength?_append {glyph : List Char} (h : Glyph '\'' glyph) :
    charLength? ('\'' :: (glyph ++ '\'' :: after)) = some (glyph.length + 2) := by
  cases h with
  | plain hQuote hEscape =>
    rw [List.singleton_append, charLength?, if_neg (not_or.mpr ⟨hQuote, hEscape⟩)]
    · rfl
    · exact fun _ hc => absurd hc hEscape
  | escape hLine =>
    rw [List.cons_append, List.singleton_append, charLength?, if_neg hLine]
    rfl

theorem headerParamsLength_append (h : HeaderParams text) (hAfter : Text.Apart after) :
    headerParamsLength (text ++ after) = text.length := by
  cases h with
  | absent =>
    rw [List.nil_append, headerParamsLength.eq_def]
    split
    · cases hAfter '[' rfl
    · rfl
  | @brackets inner hInner =>
    have hRun : (inner ++ ']' :: after).takeWhile (fun c => c ≠ ']' && c ≠ '\n') = inner := by
      apply takeWhile_run
      · simpa using hInner
      · intro c hc
        cases hc
        rfl
    rw [List.cons_append, List.append_assoc, List.singleton_append, headerParamsLength]
    simp only [hRun, List.drop_left, List.head?_cons, if_pos, List.length_cons, List.length_append,
      List.length_nil, Nat.zero_add]

/-- The first pattern that matches, by the patterns before it. -/
theorem first?_of_prior {pattern : Pattern} (prior later : List Pattern)
    (hAll : all = prior ++ pattern :: later) (hPrior : ∀ p ∈ prior, p.length? cs = none)
    (h : pattern.length? cs = some n) : first? cs = some (pattern, n) := by
  have hNone : prior.findSome? (fun p => (p.length? cs).map fun n => (p, n)) = none := by
    rw [List.findSome?_eq_none_iff]
    intro p hp
    rw [hPrior p hp, Option.map_none]
  rw [first?, hAll, List.findSome?_append, hNone, Option.none_or, List.findSome?_cons, h]
  rfl

theorem first?_name (h : isName text = true) (hAfter : Text.Apart after) :
    first? (text ++ after) = some (name, text.length) :=
  first?_of_prior [] _ rfl (List.forall_mem_nil _)
    (nameLength?_append h fun c hc => isNameChar_of_isBlank (hAfter c hc))

theorem first?_number {whole fraction : List Char} (hSome : whole ≠ [])
    (hDigits : ∀ c ∈ whole, Numeral.isDigit c = true) (hFraction : Fraction fraction)
    (hAfter : Text.Apart after) :
    first? (whole ++ fraction ++ after) = some (number, (whole ++ fraction).length) := by
  refine first?_of_prior [name] _ rfl ?_ (numberLength?_append hSome hDigits hFraction hAfter)
  rw [List.forall_mem_singleton]
  obtain ⟨c, cs, rfl⟩ := List.exists_cons_of_ne_nil hSome
  rw [length?, List.cons_append, List.cons_append, nameLength?,
    isNameStart_of_isDigit (hDigits c List.mem_cons_self)]
  rfl

theorem first?_string {glyphs : List (List Char)} (h : ∀ g ∈ glyphs, Glyph '"' g) :
    first? ('"' :: (glyphs.flatten ++ ['"']) ++ after) =
      some (string, ('"' :: (glyphs.flatten ++ ['"'])).length) := by
  apply first?_of_prior [name, number, blanks, lineComment, blockComment] _ rfl
  · simp only [List.forall_mem_cons]
    exact ⟨rfl, rfl, rfl, rfl, rfl, List.forall_mem_nil _⟩
  · rw [List.cons_append, List.append_assoc, List.singleton_append, length?, stringLength?,
      stringEnd?_append h, Option.map_some, List.length_cons, List.length_append, Nat.add_comm]
    rfl

theorem first?_char {glyph : List Char} (h : Glyph '\'' glyph) :
    first? ('\'' :: (glyph ++ ['\'']) ++ after) =
      some (char, ('\'' :: (glyph ++ ['\''])).length) := by
  apply first?_of_prior [name, number, blanks, lineComment, blockComment, string] _ rfl
  · simp only [List.forall_mem_cons]
    exact ⟨rfl, rfl, rfl, rfl, rfl, rfl, List.forall_mem_nil _⟩
  · rw [List.cons_append, List.append_assoc, List.singleton_append, length?, charLength?_append h,
      List.length_cons, List.length_append]
    rfl

theorem first?_entryRoutine (h : isName text = true) (hAfter : Text.Apart after) :
    first? ('@' :: text ++ after) = some (entryRoutine, ('@' :: text).length) := by
  apply first?_of_prior [name, number, blanks, lineComment, blockComment, string, char] _ rfl
  · simp only [List.forall_mem_cons]
    exact ⟨rfl, rfl, rfl, rfl, rfl, rfl, rfl, List.forall_mem_nil _⟩
  · rw [List.cons_append, length?, entryRoutineLength?,
      nameLength?_append h fun c hc => isNameChar_of_isBlank (hAfter c hc), Option.map_some,
      List.length_cons, Nat.add_comm]

theorem first?_header {params : List Char} (h : isName text = true) (hParams : HeaderParams params)
    (hAfter : Text.Apart after) :
    first? ('#' :: (text ++ params) ++ after) =
      some (header, ('#' :: (text ++ params)).length) := by
  have hRest : ∀ c ∈ (params ++ after).head?, isNameChar c = false := by
    cases hParams with
    | absent => exact fun c hc => isNameChar_of_isBlank (hAfter c hc)
    | brackets =>
      intro c hc
      cases hc
      rfl
  apply first?_of_prior
    [name, number, blanks, lineComment, blockComment, string, char, entryRoutine] _ rfl
  · simp only [List.forall_mem_cons]
    exact ⟨rfl, rfl, rfl, rfl, rfl, rfl, rfl, rfl, List.forall_mem_nil _⟩
  · rw [List.cons_append, List.append_assoc, length?, headerLength?, nameLength?_append h hRest,
      Option.map_some, List.drop_left, headerParamsLength_append hParams hAfter, List.length_cons,
      List.length_append]
    congr 1
    omega

end Pattern

/-! ### Symbols -/

namespace Symbol

theorem mem_all (s : Symbol) : s ∈ all := by
  cases s <;> decide

theorem isBlank_of_mem_text (s : Symbol) {c : Char} (h : c ∈ s.text.toList) :
    Text.isBlank c = false := by
  have hText : (s.text.toList.all fun c => !Text.isBlank c) = true := by
    cases s <;> rfl
  simpa using List.all_eq_true.mp hText c h

/-- No symbol comes after one that begins it. -/
theorem pairwise_all : all.Pairwise fun s t => ¬ s.text.toList <+: t.text.toList := by
  decide

/-- A symbol that begins a text which stands apart after another begins the other. -/
theorem prefix_of_apart {s t : Symbol} {after : List Char} (hAfter : Text.Apart after)
    (h : s.text.toList <+: t.text.toList ++ after) : s.text.toList <+: t.text.toList := by
  rcases List.prefix_or_prefix_of_prefix h (List.prefix_append _ after) with hs | ⟨more, hMore⟩
  · exact hs
  · cases more with
    | nil =>
      rw [← hMore, List.append_nil]
    | cons c more =>
      rw [← hMore, List.prefix_append_right_inj] at h
      have hMem : c ∈ s.text.toList := by
        rw [← hMore]
        simp
      have hBlank : Text.isBlank c = true := by
        obtain ⟨rest, rfl⟩ := h
        exact hAfter c rfl
      rw [s.isBlank_of_mem_text hMem] at hBlank
      cases hBlank

end Symbol

namespace Pattern

/-- Where a symbol stands apart, only patterns of symbols match. -/
theorem length?_symbol_eq_none (s : Symbol) {after : List Char} (hAfter : Text.Apart after) :
    ∀ p ∈ [name, number, blanks, lineComment, blockComment, string, char, entryRoutine, header],
      p.length? (s.text.toList ++ after) = none := by
  simp only [List.forall_mem_cons]
  cases s with
  | slash =>
    -- The one symbol that a comment begins with too.
    have hLine : lineCommentLength? ('/' :: after) = none := by
      rw [lineCommentLength?.eq_def]
      split
      · rename_i hText
        cases hText
        cases hAfter '/' rfl
      · rfl
    have hBlock : blockCommentLength? ('/' :: after) = none := by
      rw [blockCommentLength?.eq_def]
      split
      · rename_i hText
        cases hText
        cases hAfter '*' rfl
      · rfl
    exact ⟨rfl, rfl, rfl, hLine, hBlock, rfl, rfl, rfl, rfl, List.forall_mem_nil _⟩
  | _ => exact ⟨rfl, rfl, rfl, rfl, rfl, rfl, rfl, rfl, rfl, List.forall_mem_nil _⟩

theorem first?_symbol (s : Symbol) {after : List Char} (hAfter : Text.Apart after) :
    first? (s.text.toList ++ after) = some (symbol s, s.text.toList.length) := by
  obtain ⟨before, later, hSplit⟩ := List.append_of_mem s.mem_all
  refine first?_of_prior ([name, number, blanks, lineComment, blockComment, string, char,
    entryRoutine, header] ++ before.map symbol) (later.map symbol) ?_ ?_ ?_
  · rw [all, hSplit, List.map_append, List.map_cons, List.append_assoc]
  · intro p hp
    rcases List.mem_append.mp hp with hp | hp
    · exact length?_symbol_eq_none s hAfter p hp
    · obtain ⟨t, ht, rfl⟩ := List.mem_map.mp hp
      have hPairs := Symbol.pairwise_all
      rw [hSplit, List.pairwise_append] at hPairs
      have hNot := hPairs.2.2 t ht s List.mem_cons_self
      rw [length?_symbol, textLength?, if_neg]
      intro hPrefix
      exact hNot (Symbol.prefix_of_apart hAfter (List.isPrefixOf_iff_prefix.mp hPrefix))
  · rw [length?_symbol, textLength?,
      if_pos (List.isPrefixOf_iff_prefix.mpr (List.prefix_append _ _))]

end Pattern

/-! ### Reading lexemes -/

namespace Keyword

theorem isName_of_mem_spellings {word : String} {k : Keyword} (h : (word, k) ∈ spellings) :
    Pattern.isName word.toList = true := by
  have hAll : (spellings.all fun entry => Pattern.isName entry.1.toList) = true := by
    decide
  exact List.all_eq_true.mp hAll _ h

theorem ofSpelling?_of_mem {word : String} {k : Keyword} (h : (word, k) ∈ spellings) :
    ofSpelling? word = some k := by
  have hAll : (spellings.all fun entry => ofSpelling? entry.1 = some entry.2) = true := by
    decide
  simpa using List.all_eq_true.mp hAll _ h

end Keyword

namespace Lexeme

variable {kind : TokenKind} {value : String} {text after : List Char}

/-- Before a blank or the end, the first pattern that matches takes the whole of a lexeme, and
makes the token of it that it is. -/
theorem first? (h : Lexeme kind value text) (hAfter : Text.Apart after) :
    ∃ pattern, Pattern.first? (text ++ after) = some (pattern, text.length) ∧
      pattern.token? text = some (kind, value) := by
  cases h with
  | identifier h hFree =>
    refine ⟨_, Pattern.first?_name h hAfter, ?_⟩
    rw [Pattern.token?, TokenKind.ofWord, Keyword.ofSpelling?_eq_none_iff.mpr hFree]
  | keyword h =>
    refine ⟨_, Pattern.first?_name (Keyword.isName_of_mem_spellings h) hAfter, ?_⟩
    rw [Pattern.token?, String.ofList_toList, TokenKind.ofWord, Keyword.ofSpelling?_of_mem h]
  | number hSome hDigits hFraction =>
    exact ⟨_, Pattern.first?_number hSome hDigits hFraction hAfter, rfl⟩
  | string h =>
    refine ⟨_, Pattern.first?_string h, ?_⟩
    rw [Pattern.token?, Pattern.inside, List.drop_one, List.tail_cons, List.dropLast_concat]
  | char h =>
    refine ⟨_, Pattern.first?_char h, ?_⟩
    rw [Pattern.token?, Pattern.inside, List.drop_one, List.tail_cons, List.dropLast_concat]
  | entryRoutine h => exact ⟨_, Pattern.first?_entryRoutine h hAfter, rfl⟩
  | header h hParams => exact ⟨_, Pattern.first?_header h hParams hAfter, rfl⟩
  | symbol s => exact ⟨_, Pattern.first?_symbol s hAfter, rfl⟩

/-- A lexeme has a first character, and it is no blank. -/
theorem exists_cons (h : Lexeme kind value text) :
    ∃ c cs, text = c :: cs ∧ Text.isBlank c = false := by
  cases h with
  | identifier h => exact Pattern.exists_cons_of_isName h
  | keyword h => exact Pattern.exists_cons_of_isName (Keyword.isName_of_mem_spellings h)
  | number hSome hDigits =>
    obtain ⟨c, cs, rfl⟩ := List.exists_cons_of_ne_nil hSome
    refine ⟨c, _, rfl, Pattern.isBlank_of_isNameChar ?_⟩
    rw [Pattern.isNameChar, hDigits c List.mem_cons_self, Bool.or_true]
  | string | char | entryRoutine | header => exact ⟨_, _, rfl, rfl⟩
  | symbol s => cases s <;> exact ⟨_, _, rfl, rfl⟩

theorem ne_nil (h : Lexeme kind value text) : text ≠ [] := by
  obtain ⟨c, cs, rfl, -⟩ := h.exists_cons
  exact List.cons_ne_nil c cs

end Lexeme

end StageScript

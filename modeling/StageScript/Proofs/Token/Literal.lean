import Mathlib.Data.List.TakeWhile
import StageScript.Proofs.Grammar.Derives
import StageScript.Token.Scan

/-!
# Literal tokens have values

The patterns of literals only take texts that denote something: a number is digits, with or
without a fraction, and a character is one character or an escape of one.  So every literal
token of a source denotes an expression, and the parser never fails on it.
-/

namespace StageScript

/-! ### Numbers -/

namespace Numeral

theorem splitSign_of_isDigit {c : Char} {cs : List Char} (h : isDigit c = true) :
    splitSign (c :: cs) = (false, c :: cs) := by
  rw [splitSign.eq_def]
  split
  · cases ‹_ = _›
    cases h
  · cases ‹_ = _›
    cases h
  · rfl

/-- Digits, and at most a point with digits after them, are a number. -/
theorem exists_parse? {whole tail : List Char} (hWhole : whole ≠ [])
    (hDigits : ∀ c ∈ whole, isDigit c = true)
    (hTail : tail = [] ∨ ∃ digits, tail = '.' :: digits ∧ ∀ c ∈ digits, isDigit c = true) :
    ∃ value, parse? (String.ofList (whole ++ tail)) = some value := by
  have hTake : tail.takeWhile isDigit = [] := by
    rcases hTail with rfl | ⟨digits, rfl, -⟩ <;> rfl
  have hDrop : tail.dropWhile isDigit = tail := by
    rcases hTail with rfl | ⟨digits, rfl, -⟩ <;> rfl
  have hRest : (splitFraction tail).2 = [] := by
    rcases hTail with rfl | ⟨digits, rfl, hAll⟩
    · rfl
    · exact List.dropWhile_eq_nil_iff.mpr hAll
  have hDecimal : ∃ x, decimal? (whole ++ tail) = some x := by
    rw [decimal?, List.takeWhile_append_of_pos hDigits, List.dropWhile_append_of_pos hDigits,
      hTake, hDrop, List.append_nil]
    simp only [hRest, exponent?, hWhole, false_and, if_false, Option.map_some]
    exact ⟨_, rfl⟩
  have hSign : splitSign (whole ++ tail) = (false, whole ++ tail) := by
    obtain ⟨c, cs, rfl⟩ := List.exists_cons_of_ne_nil hWhole
    exact splitSign_of_isDigit (hDigits c List.mem_cons_self)
  obtain ⟨⟨digits, exponent⟩, hDecimal⟩ := hDecimal
  refine ⟨Binary64.ofDecimal false digits exponent, ?_⟩
  rw [parse?, String.toList_ofList, hSign]
  simp only [hDecimal]

end Numeral

namespace Pattern

/-- What a run takes is not empty, and passes the test. -/
theorem runLength?_eq_some {test : Char → Bool} {cs : List Char} {n : Nat}
    (h : runLength? test cs = some n) : cs.take n ≠ [] ∧ ∀ c ∈ cs.take n, test c = true := by
  have hRun : (cs.takeWhile test).length = n ∧ n ≠ 0 := by
    rw [runLength?] at h
    split at h
    · cases h
    · cases h
      exact ⟨‹_ = _›, Nat.succ_ne_zero _⟩
  have hTake : cs.take n = cs.takeWhile test := by
    rw [← hRun.1]
    exact (List.prefix_iff_eq_take.mp (List.takeWhile_prefix test)).symm
  rw [hTake]
  refine ⟨?_, fun c hc => List.mem_takeWhile_imp hc⟩
  intro hNil
  rw [hNil] at hRun
  exact hRun.2 hRun.1.symm

inductive Fraction : List Char → Prop
  | absent : Fraction []
  | point {digits : List Char} (hSome : digits ≠ [])
      (hDigits : ∀ c ∈ digits, Numeral.isDigit c = true) : Fraction ('.' :: digits)

theorem fraction_take (cs : List Char) : Fraction (cs.take (fractionLength cs)) := by
  rw [fractionLength.eq_def]
  split
  · rename_i cs
    cases hRun : runLength? Numeral.isDigit cs with
    | none => exact .absent
    | some n =>
      obtain ⟨hSome, hDigits⟩ := runLength?_eq_some hRun
      rw [Option.map_some, Option.getD_some, Nat.add_comm, List.take_succ_cons]
      exact .point hSome hDigits
  · exact .absent

/-- What the pattern of numbers takes is digits and a fraction. -/
theorem numberLength?_eq_some {cs : List Char} {n : Nat} (h : numberLength? cs = some n) :
    ∃ whole fraction, cs.take n = whole ++ fraction ∧ whole ≠ [] ∧
      (∀ c ∈ whole, Numeral.isDigit c = true) ∧ Fraction fraction := by
  obtain ⟨k, hRun, rfl⟩ := Option.map_eq_some_iff.mp h
  obtain ⟨hSome, hDigits⟩ := runLength?_eq_some hRun
  exact ⟨cs.take k, _, List.take_add, hSome, hDigits, fraction_take _⟩

/-- What the pattern of numbers takes is a number. -/
theorem exists_parse?_of_number {cs : List Char} {n : Nat} (h : numberLength? cs = some n) :
    n ≠ 0 ∧ ∃ value, Numeral.parse? (String.ofList (cs.take n)) = some value := by
  obtain ⟨whole, fraction, hTake, hSome, hDigits, hFraction⟩ := numberLength?_eq_some h
  constructor
  · rintro rfl
    exact hSome (List.append_eq_nil_iff.mp hTake.symm).1
  · rw [hTake]
    refine Numeral.exists_parse? hSome hDigits ?_
    cases hFraction with
    | absent => exact Or.inl rfl
    | point _ hDigits => exact Or.inr ⟨_, rfl, hDigits⟩

/-! ### Characters -/

/-- What the pattern of characters takes is one character. -/
theorem exists_unescape_of_char {cs : List Char} {n : Nat} (h : charLength? cs = some n) :
    n ≠ 0 ∧ ∃ c, unescape (inside (cs.take n)) = [c] := by
  rw [charLength?.eq_def] at h
  split at h
  · split at h
    · cases h
    · cases h
      exact ⟨by decide, _, rfl⟩
  · rename_i c rest _
    split at h
    · cases h
    · rename_i hc
      cases h
      rw [not_or] at hc
      exact ⟨by decide, c, by simp [inside, unescape, hc.2]⟩
  · cases h

/-! ### Tokens -/

theorem length?_of_first? {cs : List Char} {pattern : Pattern} {n : Nat}
    (h : first? cs = some (pattern, n)) : pattern.length? cs = some n := by
  obtain ⟨found, -, hFound⟩ := List.exists_of_findSome?_eq_some h
  obtain ⟨k, hLength, hPair⟩ := Option.map_eq_some_iff.mp hFound
  cases hPair
  exact hLength

theorem length?_symbol (s : Symbol) : (symbol s).length? = textLength? s.text.toList := by
  rw [Symbol.toList_text]
  rfl

/-- A number is a text as it stands, and a character the inside of one without escapes. -/
theorem token?_cases {taken : List Char} {pattern : Pattern} {kind : TokenKind} {value : String}
    (h : pattern.token? taken = some (kind, value)) :
    (kind = .number → pattern = .number ∧ value = String.ofList taken) ∧
      (kind = .char → pattern = .char ∧ value = String.ofList (unescape (inside taken))) := by
  cases pattern with
  | name =>
    have hWord : ∀ word, TokenKind.ofWord word ≠ .number ∧ TokenKind.ofWord word ≠ .char := by
      intro word
      rw [TokenKind.ofWord]
      split <;> exact ⟨nofun, nofun⟩
    cases h
    exact ⟨fun hk => absurd hk (hWord _).1, fun hk => absurd hk (hWord _).2⟩
  | number =>
    cases h
    exact ⟨fun _ => ⟨rfl, rfl⟩, nofun⟩
  | char =>
    cases h
    exact ⟨nofun, fun _ => ⟨rfl, rfl⟩⟩
  | blanks | lineComment | blockComment => cases h
  | string | entryRoutine | header | symbol =>
    cases h
    exact ⟨nofun, nofun⟩

end Pattern

/-- Every token of a scan is what the first matching pattern makes of the text it takes. -/
theorem exists_pattern_of_mem_scan {cursor : Cursor} {cs : List Char} {token : Token}
    (h : token ∈ (scan cursor cs).tokens) :
    ∃ c rest pattern n, Pattern.first? (c :: rest) = some (pattern, n) ∧
      pattern.token? (c :: rest.take (n - 1)) = some (token.kind, token.value) := by
  fun_induction scan cursor cs with
  | case1 => cases h
  | case2 => cases h
  | case3 cursor c cs pattern n hFirst found taken size made ih =>
    rw [Scan.cons, List.mem_append] at h
    rcases h with h | h
    · obtain ⟨⟨kind, value⟩, hToken, rfl⟩ := Option.map_eq_some_iff.mp (Option.mem_toList.mp h)
      exact ⟨c, cs, pattern, n, hFirst, hToken⟩
    · exact ih h

theorem exists_denotes_of_mem_scan {cursor : Cursor} {cs : List Char} {token : Token}
    (h : token ∈ (scan cursor cs).tokens)
    (hk : token.kind = .number ∨ token.kind = .char ∨ token.kind = .string) :
    ∃ e, Denotes token e := by
  obtain ⟨c, rest, pattern, n, hFirst, hToken⟩ := exists_pattern_of_mem_scan h
  have hLength := Pattern.length?_of_first? hFirst
  obtain ⟨hNumber, hChar⟩ := Pattern.token?_cases hToken
  have hTake : n ≠ 0 → c :: rest.take (n - 1) = (c :: rest).take n := by
    intro hn
    obtain ⟨k, rfl⟩ := Nat.exists_eq_succ_of_ne_zero hn
    rfl
  rcases hk with hk | hk | hk
  · obtain ⟨rfl, hValue⟩ := hNumber hk
    obtain ⟨hn, value, hParse⟩ := Pattern.exists_parse?_of_number hLength
    rw [← hTake hn, ← hValue] at hParse
    exact ⟨_, .num hk hParse⟩
  · obtain ⟨rfl, hValue⟩ := hChar hk
    obtain ⟨hn, d, hInside⟩ := Pattern.exists_unescape_of_char hLength
    rw [← hTake hn] at hInside
    exact ⟨_, .char hk (by rw [hValue, String.toList_ofList, hInside])⟩
  · exact ⟨_, .str hk⟩

section Tokenize

variable {source file : String} {tokens : List Token}

theorem tokenize_eq_ok (h : tokenize source file = .ok tokens) :
    (scan (.start source file) source.toList).unread = none ∧
      tokens = (scan (.start source file) source.toList).tokens ++
        [Token.endAt (scan (.start source file) source.toList).stop] := by
  rw [tokenize] at h
  simp only [Cursor.remainder_start] at h
  split at h
  · cases h
  · cases h
    exact ⟨‹_›, rfl⟩

/-- Every literal token of a source has a value. -/
theorem exists_denotes_of_mem_tokenize (h : tokenize source file = .ok tokens) {token : Token}
    (hToken : token ∈ tokens)
    (hk : token.kind = .number ∨ token.kind = .char ∨ token.kind = .string) :
    ∃ e, Denotes token e := by
  rw [(tokenize_eq_ok h).2, List.mem_append, List.mem_singleton] at hToken
  rcases hToken with hToken | rfl
  · exact exists_denotes_of_mem_scan hToken hk
  · rcases hk with hk | hk | hk <;> cases hk

end Tokenize

end StageScript

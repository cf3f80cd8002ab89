import Mathlib
import StageScript.Proofs.Token.Tiles

/-!
# Spacing does not matter

The tokens of a source, written again with other blanks between them, are read again as the
same tokens (`tokenize_respaced`).  What follows a token in the source may have ended it, gone
on it or opened a comment with it; with a blank after it, it is read by what it is alone.

The text of a token is what it was read from.  Its span tells this text in a source that is short
enough for it, and another text in a longer one (`tokenize_respaced_overflow`).
-/

namespace StageScript

/-- Texts in their order, each with its gap after it. -/
def spaced (texts : List (List Char)) (gaps : List String) : String :=
  String.join (List.zipWith (fun text gap => String.ofList text ++ gap) texts gaps)

def Token.content (t : Token) : TokenKind × String := (t.kind, t.value)

theorem toList_spaced_cons (text : List Char) (texts : List (List Char)) (gap : String)
    (gaps : List String) :
    (spaced (text :: texts) (gap :: gaps)).toList =
      text ++ (gap.toList ++ (spaced texts gaps).toList) := by
  rw [spaced, List.zipWith_cons_cons, String.toList_join, List.flatMap_cons, String.toList_append,
    String.toList_ofList, List.append_assoc, ← String.toList_join]
  rfl

namespace Pattern

/-- A run of blanks is taken as a whole. -/
theorem first?_blanks {gap rest : List Char} (hSome : gap ≠ [])
    (hGap : ∀ c ∈ gap, Text.isBlank c = true) (hRest : ∀ c ∈ rest.head?, Text.isBlank c = false) :
    first? (gap ++ rest) = some (blanks, gap.length) := by
  apply first?_of_prior [name, number] _ rfl
  · obtain ⟨c, cs, rfl⟩ := List.exists_cons_of_ne_nil hSome
    have hBlank := hGap c List.mem_cons_self
    have hName := (Bool.or_eq_false_iff.mp (isNameChar_of_isBlank hBlank)).1
    simp only [List.forall_mem_cons, length?, nameLength?, numberLength?, runLength?,
      List.cons_append, List.takeWhile_cons, hName, isDigit_of_isBlank hBlank]
    exact ⟨rfl, rfl, List.forall_mem_nil _⟩
  · exact runLength?_append hSome hGap hRest

end Pattern

section Scan

variable {cursor : Cursor} {gap text rest : List Char} {kind : TokenKind} {value : String}

theorem scan_lexeme (h : Lexeme kind value text) (hRest : Text.Apart rest) :
    scan cursor (text ++ rest) = (scan (cursor.advance (Text.byteLength text)) rest).cons
      (some ⟨kind, value, cursor.spanOf (Text.byteLength text)⟩) := by
  obtain ⟨pattern, hFirst, hToken⟩ := h.first? hRest
  rw [scan_of_first? hFirst, List.take_left, List.drop_left, hToken]
  rfl

theorem scan_blanks (hGap : ∀ c ∈ gap, Text.isBlank c = true)
    (hRest : ∀ c ∈ rest.head?, Text.isBlank c = false) :
    scan cursor (gap ++ rest) = scan (cursor.advance (Text.byteLength gap)) rest := by
  by_cases hSome : gap = []
  · subst hSome
    rfl
  · rw [scan_of_first? (Pattern.first?_blanks hSome hGap hRest), List.take_left, List.drop_left]
    rfl

end Scan

/-! ### Spaced tokens -/

section Spaced

variable {tokens : List Token} {texts : List (List Char)} {gaps : List String}

/-- With a gap that is empty only after the last text, the next text stands apart. -/
theorem apart_spaced {gap : String} (hCount : gaps.length = texts.length)
    (hGap : gap.toList.all Text.isBlank = true)
    (hApart : ∀ other ∈ (gap :: gaps).dropLast, other ≠ "") :
    Text.Apart (gap.toList ++ (spaced texts gaps).toList) := by
  intro c hc
  cases hText : gap.toList with
  | cons d cs =>
    rw [hText] at hc hGap
    cases hc
    exact List.all_eq_true.mp hGap _ List.mem_cons_self
  | nil =>
    cases gaps with
    | nil =>
      rw [List.eq_nil_of_length_eq_zero hCount.symm, hText] at hc
      cases hc
    | cons other gaps =>
      have hEmpty : gap = "" := by rw [← String.ofList_toList (s := gap), hText]
      exact absurd hEmpty (hApart gap List.mem_cons_self)

/-- Spaced tokens begin with a token, if at all. -/
theorem head?_spaced (hTexts : List.Forall₂ (fun t text => Lexeme t.kind t.value text) tokens texts)
    (hCount : gaps.length = texts.length) :
    ∀ c ∈ (spaced texts gaps).toList.head?, Text.isBlank c = false := by
  intro c hc
  cases hTexts with
  | nil => cases hc
  | cons hLexeme _ =>
    cases gaps with
    | nil => cases hCount
    | cons gap gaps =>
      obtain ⟨d, cs, rfl, hBlank⟩ := hLexeme.exists_cons
      rw [toList_spaced_cons] at hc
      cases hc
      exact hBlank

/-- Tokens that are written with blanks before the first, between any two and after the last are
read again. -/
theorem scan_spaced (hTexts : List.Forall₂ (fun t text => Lexeme t.kind t.value text) tokens texts)
    (hCount : gaps.length = texts.length)
    (hGaps : ∀ gap ∈ gaps, gap.toList.all Text.isBlank = true)
    (hApart : ∀ gap ∈ gaps.dropLast, gap ≠ "") {lead : String}
    (hLead : lead.toList.all Text.isBlank = true) (cursor : Cursor) :
    (scan cursor (lead.toList ++ (spaced texts gaps).toList)).unread = none ∧
      (scan cursor (lead.toList ++ (spaced texts gaps).toList)).tokens.map Token.content =
        tokens.map Token.content := by
  -- The gap after a token leads the tokens after it.
  induction hTexts generalizing gaps lead cursor with
  | nil =>
    rw [scan_blanks (List.all_eq_true.mp hLead) (head?_spaced .nil hCount),
      show (spaced [] gaps).toList = [] from rfl, scan]
    exact ⟨rfl, rfl⟩
  | @cons t text tokens texts hFirst hTexts ih =>
    rw [scan_blanks (List.all_eq_true.mp hLead) (head?_spaced (.cons hFirst hTexts) hCount)]
    cases gaps with
    | nil => cases hCount
    | cons gap gaps =>
      obtain ⟨hGap, hGaps⟩ := List.forall_mem_cons.mp hGaps
      have hCount := Nat.succ.inj hCount
      have hLater : ∀ other ∈ gaps.dropLast, other ≠ "" := by
        cases gaps with
        | nil => exact List.forall_mem_nil _
        | cons _ _ => exact (List.forall_mem_cons.mp hApart).2
      rw [toList_spaced_cons, scan_lexeme hFirst (apart_spaced hCount hGap hApart)]
      obtain ⟨hEnd, hContent⟩ := ih hCount hGaps hLater hGap
        ((cursor.advance (Text.byteLength lead.toList)).advance (Text.byteLength text))
      exact ⟨hEnd, congrArg (t.content :: ·) hContent⟩

end Spaced

def Scan.outcome (s : Scan) : Except Diagnostic (List Token) :=
  match s.unread with
  | some c => .error ⟨.unrecognised (String.ofList [c]), s.stop⟩
  | none => .ok (s.tokens ++ [Token.endAt s.stop])

theorem tokenize_eq_outcome (source file : String) :
    tokenize source file = (scan (.start source file) source.toList).outcome := by
  have hOutcome : tokenize source file =
      (scan (.start source file) (Cursor.start source file).remainder).outcome := rfl
  rw [hOutcome, Cursor.remainder_start]

/-- A source that is scanned to its end. -/
theorem tokenize_of_unread {source file : String}
    (h : (scan (.start source file) source.toList).unread = none) :
    tokenize source file = .ok ((scan (.start source file) source.toList).tokens ++
      [Token.atEnd file source.utf8ByteSize]) := by
  rw [tokenize_eq_outcome, Scan.outcome, h, scan_stop h, Text.byteLength_toList, Token.atEnd,
    Cursor.position, Cursor.advance, Cursor.start, Nat.zero_add]

/-- Spacing does not matter.  If a source has the tokens `read` and an end token, then the texts
that these tokens were read from, written with any blanks before the first, some blanks between any
two and any blanks after the last, have the same kinds and values in the same order, and an end
token.  In a source of less than 2^32 bytes these texts are those of the spans. -/
theorem tokenize_respaced {source file : String} {read : List Token} {last : Token}
    (h : tokenize source file = .ok (read ++ [last])) :
    last.kind = .eof ∧ ∃ texts, Tiled (.start source file) source.toList read texts ∧
      (source.utf8ByteSize < 2 ^ 32 →
        texts = read.map fun t => (t.span.textIn source).toList) ∧
      ∀ (lead : String) (gaps : List String), lead.toList.all Text.isBlank = true →
        (∀ gap ∈ gaps, gap.toList.all Text.isBlank = true) → gaps.length = read.length →
        (∀ gap ∈ gaps.dropLast, gap ≠ "") → ∀ other, ∃ again,
          tokenize (lead ++ spaced texts gaps) other =
            .ok (again ++ [Token.atEnd other (lead ++ spaced texts gaps).utf8ByteSize]) ∧
          again.map Token.content = read.map Token.content := by
  obtain ⟨tokens, texts, hTokens, hTiled⟩ := tokenize_tiled h
  obtain ⟨rfl, hLast⟩ := List.append_inj' hTokens rfl
  refine ⟨by rw [List.singleton_inj.mp hLast]; rfl, texts, hTiled, fun hSize => ?_, ?_⟩
  · exact (hTiled.spans (Span.ofOffsets file 0 0) (.start source file) rfl hSize rfl).1
  · intro lead gaps hLead hGaps hCount hApart other
    obtain ⟨hEnd, hContent⟩ := scan_spaced hTiled.lexemes
      (hCount.trans hTiled.lexemes.length_eq) hGaps hApart hLead
      (.start (lead ++ spaced texts gaps) other)
    rw [← String.toList_append] at hEnd hContent
    exact ⟨_, tokenize_of_unread hEnd, hContent⟩

/-- Spacing takes a number from a range, and a slash from the star that it opens no comment
with. -/
theorem tokenize_respaced_range : ∃ read last again,
    tokenize "1../*a" "a" = .ok (read ++ [last]) ∧
    read.map Token.value = ["1", "..", "/", "*", "a"] ∧ last.kind = .eof ∧
    tokenize "\n1 ..\n/\t * a" "b" = .ok (again ++ [Token.atEnd "b" 12]) ∧
    again.map Token.content = read.map Token.content := by
  have hRun : tokenize "1../*a" "a" = .ok ([⟨.number, "1", Span.ofOffsets "a" 0 1⟩,
      ⟨.symbol .dots, "..", Span.ofOffsets "a" 1 3⟩,
      ⟨.symbol .slash, "/", Span.ofOffsets "a" 3 4⟩,
      ⟨.symbol .star, "*", Span.ofOffsets "a" 4 5⟩,
      ⟨.identifier, "a", Span.ofOffsets "a" 5 6⟩] ++ [Token.atEnd "a" 6]) := by
    cbv
  obtain ⟨hLast, texts, -, hTexts, hAgain⟩ := tokenize_respaced hRun
  have hSpelled : texts = [['1'], ['.', '.'], ['/'], ['*'], ['a']] := by
    rw [hTexts (by decide)]
    cbv
  obtain ⟨again, hTokens, hContent⟩ :=
    hAgain "\n" [" ", "\n", "\t ", " ", ""] rfl (by decide) rfl (by decide) "b"
  rw [hSpelled] at hTokens
  exact ⟨_, _, again, hRun, rfl, hLast, hTokens, hContent⟩

/-! ### Sources that are too long -/

def Text.padded (n : Nat) (text : List Char) : String :=
  String.ofList (List.replicate n ' ' ++ text)

section Padded

variable {n : Nat} {text : List Char}

theorem Text.toList_padded : (padded n text).toList = List.replicate n ' ' ++ text := by
  rw [padded, String.toList_ofList]

theorem Text.byteLength_replicate {c : Char} (hc : c.utf8Size = 1) (n : Nat) :
    byteLength (List.replicate n c) = n := by
  induction n with
  | zero => rfl
  | succ n ih => rw [List.replicate_succ, byteLength, ih, hc, Nat.add_comm]

theorem Text.utf8ByteSize_padded : (padded n text).utf8ByteSize = n + byteLength text := by
  rw [← byteLength_toList, toList_padded, byteLength_append, byteLength_replicate rfl]

theorem scan_padded (file : String) (h : ∀ c ∈ text.head?, Text.isBlank c = false) :
    scan (.start (Text.padded n text) file) (Text.padded n text).toList =
      scan ((Cursor.start (Text.padded n text) file).advance n) text := by
  have hBlank : ∀ c ∈ List.replicate n ' ', Text.isBlank c = true := by
    intro c hc
    rw [List.eq_of_mem_replicate hc]
    rfl
  rw [Text.toList_padded, scan_blanks hBlank h, Text.byteLength_replicate rfl]

/-- A lexeme behind as many blanks as wrap around to none seems to stand at the start. -/
theorem tokenize_padded {kind : TokenKind} {value : String} (file : String) (hn : narrow n = 0)
    (h : Lexeme kind value text) :
    tokenize (Text.padded n text) file = .ok ([⟨kind, value,
      Span.ofBytes file 0 (Text.byteLength text)⟩] ++
        [Token.atEnd file (Text.byteLength text)]) := by
  have hHead : ∀ c ∈ text.head?, Text.isBlank c = false := by
    obtain ⟨c, cs, rfl, hBlank⟩ := h.exists_cons
    intro d hd
    cases hd
    exact hBlank
  have hBehind : ∀ k, Position.behind file (n + k) = .behind file k := by
    intro k
    rw [Position.behind, Position.behind, ← narrow_narrow_add, hn, Nat.zero_add]
  have hSpan : Span.ofBytes file (0 + n) (0 + n + Text.byteLength text) =
      .ofBytes file 0 (Text.byteLength text) := by
    rw [Nat.zero_add, Span.ofBytes, Span.ofBytes, hBehind, ← hBehind 0, Nat.add_zero]
  have hApart : Text.Apart [] := fun _ hc => by cases hc
  have hScan := (scan_padded (n := n) file hHead).trans
    (List.append_nil text ▸ scan_lexeme h hApart)
  rw [scan] at hScan
  have hEnd : (scan (.start (Text.padded n text) file) (Text.padded n text).toList).unread =
      none := by
    rw [hScan]
    rfl
  rw [tokenize_of_unread hEnd, hScan, Text.utf8ByteSize_padded, Token.atEnd, hBehind, ← hSpan]
  rfl

end Padded

/-- In a source of more than 2^32 bytes the span of a token can show another text, here a blank for
a name.  Written again by their spans, such tokens are lost. -/
theorem tokenize_respaced_overflow : ∃ read last,
    tokenize (Text.padded (2 ^ 32) ['x']) "a" = .ok (read ++ [last]) ∧
    read.map Token.content = [(.identifier, "x")] ∧
    spaced (read.map fun t => (t.span.textIn (Text.padded (2 ^ 32) ['x'])).toList) [""] = " " ∧
    tokenize " " "a" = .ok [Token.atEnd "a" 1] := by
  have hName : Lexeme .identifier "x" ['x'] := .identifier (by decide) (by decide)
  have hRun := tokenize_padded "a" (n := 2 ^ 32) rfl hName
  refine ⟨_, _, hRun, rfl, ?_, by cbv⟩
  have hText : (Text.between (Text.padded (2 ^ 32) ['x']) 0 1).toList = [' '] := by
    have hSource : (Text.padded (2 ^ 32) ['x']).toList =
        [] ++ [' '] ++ (List.replicate (2 ^ 32 - 1) ' ' ++ ['x']) := by
      rw [Text.toList_padded, show 2 ^ 32 = (2 ^ 32 - 1) + 1 from rfl, List.replicate_succ]
      rfl
    exact Text.between_eq hSource rfl rfl
  have hSpaced : spaced [[' ']] [""] = " " := by
    cbv
  rw [← hSpaced, ← hText]
  rfl

end StageScript

import Mathlib
import StageScript.Proofs.Token.Lexeme

/-!
# Tokens tile their source

A source that is cut into tokens is nothing but lexemes and what is skipped between them:
blanks, comments up to the end of their line and closed comments.  `Tiled` says so of the text at
a cursor and of the tokens that are read from it, and `scan_tiled` that every scan to the end is of
this kind.  Spans of 32 bits tell the same of a source that is short enough (`tokenize_tiles`).
-/

namespace StageScript

/-! ### Texts by their bytes -/

namespace Text

theorem byteLength_eq_utf8Len (cs : List Char) : byteLength cs = String.utf8Len cs := by
  induction cs with
  | nil => rfl
  | cons c cs ih => rw [byteLength, ih, String.utf8Len_cons, Nat.add_comm]

theorem byteLength_append (cs ds : List Char) :
    byteLength (cs ++ ds) = byteLength cs + byteLength ds := by
  simp only [byteLength_eq_utf8Len, String.utf8Len_append]

theorem byteLength_toList (s : String) : byteLength s.toList = s.utf8ByteSize := by
  rw [byteLength_eq_utf8Len, String.utf8Len_toList]

theorem byteLength_pos {cs : List Char} (h : cs ≠ []) : 0 < byteLength cs := by
  rw [byteLength_eq_utf8Len, Nat.pos_iff_ne_zero]
  exact fun hZero => h (String.utf8Len_eq_zero.mp hZero)

def between (source : String) (start stop : Nat) : String :=
  String.Pos.Raw.extract source ⟨start⟩ ⟨stop⟩

variable {source : String} {before text after : List Char} {start stop : Nat}

theorem between_eq (h : source.toList = before ++ text ++ after)
    (hStart : start = byteLength before) (hStop : stop = byteLength before + byteLength text) :
    (between source start stop).toList = text := by
  rw [between, ← String.ofList_toList (s := source), h, hStart, hStop, byteLength_eq_utf8Len,
    byteLength_eq_utf8Len, String.extract_of_valid, String.toList_ofList]

theorem between_end (h : source.toList = before ++ text) (hStart : start = byteLength before) :
    (between source start source.utf8ByteSize).toList = text := by
  refine between_eq (h.trans (List.append_nil _).symm) hStart ?_
  rw [← byteLength_toList, h, byteLength_append]

/-- An offset after whole characters is a boundary of characters. -/
theorem isValid_of_eq (h : source.toList = before ++ after) (hStart : start = byteLength before) :
    String.Pos.Raw.IsValid source ⟨start⟩ := by
  rw [String.Pos.Raw.isValid_iff_exists_append]
  refine ⟨String.ofList before, String.ofList after, ?_, ?_⟩
  · rw [← String.ofList_append, ← h, String.ofList_toList]
  · rw [String.rawEndPos_ofList, hStart, byteLength_eq_utf8Len]

end Text

/-! ### Where a cursor stands -/

namespace Cursor

/-- The source of the cursor is `before`, and behind the cursor `rest`. -/
structure At (c : Cursor) (before rest : List Char) : Prop where
  source_eq : c.source = before ++ rest
  offset_eq : c.offset = Text.byteLength before

theorem dropBytes_append (before rest : List Char) :
    dropBytes (Text.byteLength before) (before ++ rest) = rest := by
  induction before with
  | nil => exact dropBytes_zero rest
  | cons c before ih =>
    obtain ⟨k, hk⟩ := Nat.exists_eq_succ_of_ne_zero c.utf8Size_pos.ne'
    have hBytes : Text.byteLength (c :: before) = k + Text.byteLength before + 1 := by
      rw [Text.byteLength, hk]
      omega
    have hLeft : k + Text.byteLength before + 1 - c.utf8Size = Text.byteLength before := by omega
    rw [hBytes, List.cons_append, dropBytes, hLeft, ih]

theorem advance_advance (c : Cursor) (m n : Nat) : (c.advance m).advance n = c.advance (m + n) := by
  rw [advance, advance, advance, Nat.add_assoc]

namespace At

variable {c : Cursor} {before text rest : List Char}

theorem start (source file : String) : (start source file).At [] source.toList := ⟨rfl, rfl⟩

theorem remainder_eq (h : c.At before rest) : c.remainder = rest := by
  rw [remainder, h.source_eq, h.offset_eq, dropBytes_append]

/-- The cursor goes over a text that it stands before. -/
theorem advance (h : c.At before (text ++ rest)) :
    (c.advance (Text.byteLength text)).At (before ++ text) rest where
  source_eq := by
    rw [List.append_assoc]
    exact h.source_eq
  offset_eq := by
    rw [Text.byteLength_append, ← h.offset_eq]
    rfl

theorem offset_add (h : c.At before rest) :
    c.offset + Text.byteLength rest = Text.byteLength c.source := by
  rw [h.source_eq, h.offset_eq, Text.byteLength_append]

end At

/-- A span that ends within the first 32 bits of bytes is not cut. -/
theorem spanOf_eq {c : Cursor} {bytes : Nat} (h : c.offset + bytes < 2 ^ 32) :
    c.spanOf bytes = Span.ofOffsets c.file c.offset (c.offset + bytes) := by
  have hStart : c.offset < 2 ^ 32 := by omega
  rw [spanOf, Span.ofBytes, Position.behind, Position.behind, narrow_of_lt h, narrow_of_lt hStart]
  rfl

end Cursor

/-! ### What is skipped -/

inductive Skip (rest : List Char) : List Char → Prop
  | blanks {run : List Char} (hSome : run ≠ []) (h : ∀ c ∈ run, Text.isBlank c = true) :
      Skip rest run
  /-- A comment goes to the end of the line, or of the source. -/
  | lineComment {body : List Char} (h : ∀ c ∈ body, c ≠ '\n')
      (hEnd : ∀ c ∈ rest.head?, c = '\n') : Skip rest ('/' :: '/' :: body)
  /-- A comment that is opened goes to where it is first closed. -/
  | blockComment {body : List Char} (h : ¬ ['*', '/'] <:+: body ++ ['*']) :
      Skip rest ('/' :: '*' :: (body ++ ['*', '/']))

inductive Skipped (rest : List Char) : List Char → Prop
  | nil : Skipped rest []
  | cons {piece gap : List Char} (h : Skip (gap ++ rest) piece) (hGap : Skipped rest gap) :
      Skipped rest (piece ++ gap)

namespace Pattern

variable {cs : List Char} {n : Nat}

theorem comment_take (h : commentEnd? cs = some n) :
    ∃ body, cs.take n = body ++ ['*', '/'] ∧ ¬ ['*', '/'] <:+: body ++ ['*'] := by
  fun_induction commentEnd? cs generalizing n with
  | case1 => cases h
  | case2 =>
    cases h
    exact ⟨[], rfl, by decide⟩
  | case3 c cs hOpen ih =>
    obtain ⟨k, hk, rfl⟩ := Option.map_eq_some_iff.mp h
    obtain ⟨body, hTake, hBody⟩ := ih hk
    refine ⟨c :: body, by rw [Nat.add_comm, List.take_succ_cons, hTake, List.cons_append], ?_⟩
    rw [List.cons_append, List.infix_cons_iff, not_or]
    refine ⟨?_, hBody⟩
    -- A star here and a slash next would have closed the comment.
    rintro ⟨rest, hStar⟩
    obtain ⟨rfl, hSlash⟩ := List.cons.inj hStar
    cases body with
    | nil => cases hSlash
    | cons d body =>
      obtain ⟨rfl, -⟩ := List.cons.inj hSlash
      have hSlash : cs = '/' :: (body ++ ['*', '/'] ++ cs.drop k) := by
        calc cs = cs.take k ++ cs.drop k := (List.take_append_drop k cs).symm
          _ = '/' :: (body ++ ['*', '/'] ++ cs.drop k) := by rw [hTake]; rfl
      exact hOpen _ rfl hSlash

/-- A run ends where a character does not go on it. -/
theorem head?_drop_run (test : Char → Bool) (cs : List Char) :
    ∀ c ∈ (cs.drop (cs.takeWhile test).length).head?, test c = false := by
  induction cs with
  | nil => simp
  | cons d cs ih =>
    by_cases hd : test d = true
    · simpa [hd] using ih
    · simp [hd]

theorem skip_of_length? {pattern : Pattern} (h : pattern.length? cs = some n)
    (hToken : pattern.token? (cs.take n) = none) : Skip (cs.drop n) (cs.take n) := by
  cases pattern with
  | blanks =>
    obtain ⟨hSome, hBlank⟩ := runLength?_eq_some h
    exact .blanks hSome hBlank
  | lineComment =>
    rw [length?, lineCommentLength?.eq_def] at h
    split at h
    · rename_i cs
      cases h
      rw [Nat.add_comm, List.take_succ_cons, List.take_succ_cons, List.drop_succ_cons,
        List.drop_succ_cons, ← List.prefix_iff_eq_take.mp (List.takeWhile_prefix _)]
      refine .lineComment (fun c hc => ?_) fun c hc => ?_
      · simpa using List.mem_takeWhile_imp hc
      · simpa using head?_drop_run _ cs c hc
    · cases h
  | blockComment =>
    rw [length?, blockCommentLength?.eq_def] at h
    split at h
    · obtain ⟨k, hk, rfl⟩ := Option.map_eq_some_iff.mp h
      obtain ⟨body, hTake, hBody⟩ := comment_take hk
      rw [Nat.add_comm, List.take_succ_cons, List.take_succ_cons, hTake]
      exact .blockComment hBody
    · cases h
  | name | number | string | char | entryRoutine | header | symbol => cases hToken

end Pattern

/-! ### Tilings -/

/-- The text at a cursor is lexemes with what is skipped before, between and after them.  The tokens
are these lexemes, each with the span that it has there, and `texts` are the lexemes themselves. -/
inductive Tiled : Cursor → List Char → List Token → List (List Char) → Prop
  | done {cursor : Cursor} {gap : List Char} (h : Skipped [] gap) : Tiled cursor gap [] []
  | token {cursor start : Cursor} {gap text rest : List Char} {kind : TokenKind} {value : String}
      {tokens : List Token} {texts : List (List Char)} (hGap : Skipped (text ++ rest) gap)
      (hText : Lexeme kind value text) (hStart : start = cursor.advance (Text.byteLength gap))
      (hRest : Tiled (start.advance (Text.byteLength text)) rest tokens texts) :
      Tiled cursor (gap ++ text ++ rest)
        (⟨kind, value, start.spanOf (Text.byteLength text)⟩ :: tokens) (text :: texts)

namespace Tiled

variable {cursor : Cursor} {cs piece : List Char} {tokens : List Token} {texts : List (List Char)}

theorem skip (h : Skip cs piece)
    (hRest : Tiled (cursor.advance (Text.byteLength piece)) cs tokens texts) :
    Tiled cursor (piece ++ cs) tokens texts := by
  cases hRest with
  | done hGap =>
    refine .done (.cons ?_ hGap)
    rwa [List.append_nil]
  | token hGap hText hStart hRest =>
    rw [List.append_assoc] at h
    rw [← List.append_assoc, ← List.append_assoc]
    refine .token (.cons h hGap) hText ?_ hRest
    rw [hStart, Cursor.advance_advance, Text.byteLength_append]

/-- The texts of the tokens are the tokens that they are. -/
theorem lexemes (h : Tiled cursor cs tokens texts) :
    List.Forall₂ (fun t text => Lexeme t.kind t.value text) tokens texts := by
  induction h with
  | done => exact .nil
  | token _ hText _ _ ih => exact .cons hText ih

/-- Where a token starts, and what stands there. -/
theorem exists_text (h : Tiled cursor cs tokens texts) {before : List Char}
    (hAt : cursor.At before cs) {t : Token} (ht : t ∈ tokens) :
    ∃ front text rest, cursor.source = front ++ (text ++ rest) ∧
      t.span.start = .behind cursor.file (Text.byteLength front) ∧
      Lexeme t.kind t.value text := by
  induction h generalizing before with
  | done => cases ht
  | @token cursor start gap text rest _ _ _ _ _ hText hStart _ ih =>
    rw [List.append_assoc] at hAt
    have hStarts : start.At (before ++ gap) (text ++ rest) := hStart ▸ hAt.advance
    subst hStart
    rcases List.mem_cons.mp ht with rfl | ht
    · refine ⟨before ++ gap, text, rest, hStarts.source_eq, ?_, hText⟩
      rw [← hStarts.offset_eq]
      rfl
    · exact ih hStarts.advance ht

theorem file_eq (h : Tiled cursor cs tokens texts) :
    ∀ t ∈ tokens, t.span.start.file = cursor.file := by
  induction h with
  | done => exact List.forall_mem_nil _
  | token _ _ hStart _ ih =>
    subst hStart
    exact List.forall_mem_cons.mpr ⟨rfl, ih⟩

end Tiled

theorem Skip.ne_nil {rest piece : List Char} (h : Skip rest piece) : piece ≠ [] := by
  cases h with
  | blanks hSome => exact hSome
  | lineComment | blockComment => exact List.cons_ne_nil _ _

theorem Pattern.take_ne_nil {pattern : Pattern} {cs : List Char} {n : Nat}
    (h : pattern.length? cs = some n) : cs.take n ≠ [] := by
  cases hToken : pattern.token? (cs.take n) with
  | none => exact (skip_of_length? h hToken).ne_nil
  | some made => exact (lexeme_of_token? h hToken).ne_nil

/-! ### Scans -/

theorem Pattern.taken_eq {pattern : Pattern} {cs : List Char} {n : Nat}
    (h : pattern.length? cs = some n) : pattern.taken (cs.take n) = cs.take n := by
  cases pattern with
  | symbol s =>
    rw [length?_symbol, textLength?] at h
    split at h
    · cases h
      exact List.prefix_iff_eq_take.mp (List.isPrefixOf_iff_prefix.mp ‹_›)
    · cases h
  | _ => rfl

section Scan

variable {cursor : Cursor} {n : Nat} {cs : List Char} {pattern : Pattern}

/-- One step of a scan, by the first pattern that matches. -/
theorem scan_of_first? (h : Pattern.first? cs = some (pattern, n)) :
    scan cursor cs = (scan (cursor.advance (Text.byteLength (cs.take n))) (cs.drop n)).cons
      ((pattern.token? (cs.take n)).map fun made =>
        ⟨made.1, made.2, cursor.spanOf (Text.byteLength (cs.take n))⟩) := by
  have hLength := Pattern.length?_of_first? h
  have hSome := Pattern.take_ne_nil hLength
  have hTaken := Pattern.taken_eq hLength
  cases cs with
  | nil => exact absurd List.take_nil hSome
  | cons c cs =>
    cases n with
    | zero => exact absurd rfl hSome
    | succ k =>
      rw [List.take_succ_cons] at hTaken
      have hDrop : cs.drop ((cs.take k).length + 1 - 1) = (c :: cs).drop (k + 1) := by
        rw [Nat.add_sub_cancel, List.drop_succ_cons, List.length_take]
        rcases Nat.le_total k cs.length with hk | hk
        · rw [Nat.min_eq_left hk]
        · rw [Nat.min_eq_right hk, List.drop_length, List.drop_eq_nil_of_le hk]
      rw [scan, h]
      simp only [Nat.add_sub_cancel, hTaken, List.length_cons, ← hDrop, List.take_succ_cons]

theorem scan_of_first?_eq_none {c : Char} (h : Pattern.first? (c :: cs) = none) :
    scan cursor (c :: cs) = ⟨[], cursor.position, some c⟩ := by
  rw [scan, h]

/-- What holds where a scan ends or stops and is kept by its steps holds of every scan. -/
theorem scan_induction {motive : Cursor → List Char → Prop} (nil : ∀ cursor, motive cursor [])
    (stuck : ∀ cursor c cs, Pattern.first? (c :: cs) = none → motive cursor (c :: cs))
    (step : ∀ cursor cs pattern n, Pattern.first? cs = some (pattern, n) →
      motive (cursor.advance (Text.byteLength (cs.take n))) (cs.drop n) → motive cursor cs)
    (cursor : Cursor) (cs : List Char) : motive cursor cs := by
  induction hLength : cs.length using Nat.strongRecOn generalizing cursor cs with
  | ind length ih =>
    cases cs with
    | nil => exact nil cursor
    | cons c cs =>
      cases hFirst : Pattern.first? (c :: cs) with
      | none => exact stuck cursor c cs hFirst
      | some found =>
        obtain ⟨pattern, n⟩ := found
        refine step cursor _ pattern n hFirst (ih _ ?_ _ _ rfl)
        have hn : n ≠ 0 := by
          rintro rfl
          exact Pattern.take_ne_nil (Pattern.length?_of_first? hFirst) rfl
        rw [List.length_cons] at hLength
        rw [List.length_drop, List.length_cons]
        omega

/-- A scan to the end stops at the end. -/
theorem scan_stop (h : (scan cursor cs).unread = none) :
    (scan cursor cs).stop = (cursor.advance (Text.byteLength cs)).position := by
  induction cursor, cs using scan_induction with
  | nil cursor =>
    rw [scan]
    rfl
  | stuck cursor c cs hFirst =>
    rw [scan_of_first?_eq_none hFirst] at h
    cases h
  | step cursor cs pattern n hFirst ih =>
    rw [scan_of_first? hFirst] at h ⊢
    have hBytes : Text.byteLength cs =
        Text.byteLength (cs.take n) + Text.byteLength (cs.drop n) := by
      rw [← Text.byteLength_append, List.take_append_drop]
    rw [hBytes, ← Cursor.advance_advance]
    exact ih h

/-- A scan to the end tiles its text. -/
theorem scan_tiled (h : (scan cursor cs).unread = none) :
    ∃ texts, Tiled cursor cs (scan cursor cs).tokens texts := by
  induction cursor, cs using scan_induction with
  | nil cursor =>
    rw [scan]
    exact ⟨[], .done .nil⟩
  | stuck cursor c cs hFirst =>
    rw [scan_of_first?_eq_none hFirst] at h
    cases h
  | step cursor cs pattern n hFirst ih =>
    have hTake := Pattern.length?_of_first? hFirst
    have hText := List.take_append_drop n cs
    rw [scan_of_first? hFirst] at h ⊢
    obtain ⟨texts, hRest⟩ := ih h
    cases hToken : pattern.token? (cs.take n) with
    | none =>
      have hTiled := hRest.skip (Pattern.skip_of_length? hTake hToken)
      rw [hText] at hTiled
      exact ⟨texts, hTiled⟩
    | some made =>
      have hTiled := Tiled.token .nil (Pattern.lexeme_of_token? hTake hToken) rfl hRest
      rw [List.nil_append, hText] at hTiled
      exact ⟨_, hTiled⟩

end Scan

theorem tokenize_tiled {source file : String} {tokens : List Token}
    (h : tokenize source file = .ok tokens) :
    ∃ read texts, tokens = read ++ [Token.atEnd file source.utf8ByteSize] ∧
      Tiled (.start source file) source.toList read texts := by
  obtain ⟨hEnd, hTokens⟩ := tokenize_eq_ok h
  obtain ⟨texts, hTiled⟩ := scan_tiled hEnd
  refine ⟨_, texts, ?_, hTiled⟩
  rw [hTokens, scan_stop hEnd, Text.byteLength_toList, Token.atEnd, Cursor.position,
    Cursor.advance, Cursor.start, Nat.zero_add]

/-! ### Values -/

inductive Escape : Char → Char → Prop
  | newline : Escape 'n' '\n'
  | tab : Escape 't' '\t'
  | carriageReturn : Escape 'r' '\r'
  | null : Escape '0' '\x00'
  | other {c : Char} (h : c ∉ ['n', 't', 'r', '0']) : Escape c c

/-- What stands between quotes, and the text that it stands for. -/
inductive Unescaped : List Char → List Char → Prop
  | nil : Unescaped [] []
  | plain {c : Char} {cs ds : List Char} (hc : c ≠ '\\') (h : Unescaped cs ds) :
      Unescaped (c :: cs) (c :: ds)
  | escape {c d : Char} {cs ds : List Char} (hc : Escape c d) (h : Unescaped cs ds) :
      Unescaped ('\\' :: c :: cs) (d :: ds)

/-- The text of a token of this kind spells the value: it is the value, or the value is behind a
mark, or between quotes. -/
inductive Spells : TokenKind → List Char → List Char → Prop
  | number {text : List Char} : Spells .number text text
  | identifier {text : List Char} : Spells .identifier text text
  | keyword {k : Keyword} {text : List Char} : Spells (.keyword k) text text
  | symbol {s : Symbol} {text : List Char} : Spells (.symbol s) text text
  | entryRoutine {value : List Char} : Spells .entryRoutine ('@' :: value) value
  | header {value : List Char} : Spells .header ('#' :: value) value
  | string {inner value : List Char} (h : Unescaped inner value) :
      Spells .string ('"' :: (inner ++ ['"'])) value
  | char {inner value : List Char} (h : Unescaped inner value) :
      Spells .char ('\'' :: (inner ++ ['\''])) value

theorem Escape.unique {c d e : Char} (h : Escape c d) (h' : Escape c e) : d = e := by
  cases h <;> cases h' <;> simp_all

theorem Unescaped.unique {cs ds es : List Char} (h : Unescaped cs ds) (h' : Unescaped cs es) :
    ds = es := by
  induction h generalizing es with
  | nil =>
    cases h'
    rfl
  | plain hc _ ih =>
    cases h' with
    | plain _ h' => rw [ih h']
    | escape => exact absurd rfl hc
  | escape hd _ ih =>
    cases h' with
    | plain hc => exact absurd rfl hc
    | escape hd' h' => rw [ih h', hd.unique hd']

/-- The text of a token determines its value. -/
theorem Spells.unique {kind : TokenKind} {text value other : List Char}
    (h : Spells kind text value) (h' : Spells kind text other) : value = other := by
  have hQuotes : ∀ {quote : Char} {inner inner' : List Char},
      quote :: (inner ++ [quote]) = quote :: (inner' ++ [quote]) → inner = inner' :=
    fun h => List.append_cancel_right (List.cons.inj h).2
  cases h with
  | string h =>
    generalize hText : '"' :: (_ ++ ['"']) = text at h'
    cases h' with
    | string h' =>
      cases hQuotes hText
      exact h.unique h'
  | char h =>
    generalize hText : '\'' :: (_ ++ ['\'']) = text at h'
    cases h' with
    | char h' =>
      cases hQuotes hText
      exact h.unique h'
  | number | identifier | keyword | symbol | entryRoutine | header =>
    cases h'
    rfl

namespace Pattern

theorem escape_unescapeChar (c : Char) : Escape c (unescapeChar c) := by
  rw [unescapeChar.eq_def]
  split
  · exact .newline
  · exact .tab
  · exact .carriageReturn
  · exact .null
  · exact .other (by simp_all)

theorem unescape_cons_of_ne {c : Char} (h : c ≠ '\\') (cs : List Char) :
    unescape (c :: cs) = c :: unescape cs := by
  rw [unescape]
  · exact fun hc => absurd hc h
  · exact fun _ _ hc => absurd hc h

theorem unescaped_glyph {quote : Char} {glyph rest : List Char} (h : Glyph quote glyph)
    (hRest : Unescaped rest (unescape rest)) :
    Unescaped (glyph ++ rest) (unescape (glyph ++ rest)) := by
  cases h with
  | plain _ hEscape =>
    rw [List.singleton_append, unescape_cons_of_ne hEscape]
    exact .plain hEscape hRest
  | escape => exact .escape (escape_unescapeChar _) hRest

theorem unescaped_flatten {quote : Char} {glyphs : List (List Char)}
    (h : ∀ g ∈ glyphs, Glyph quote g) : Unescaped glyphs.flatten (unescape glyphs.flatten) := by
  induction glyphs with
  | nil => exact .nil
  | cons g glyphs ih =>
    obtain ⟨hGlyph, hGlyphs⟩ := List.forall_mem_cons.mp h
    rw [List.flatten_cons]
    exact unescaped_glyph hGlyph (ih hGlyphs)

end Pattern

namespace Lexeme

variable {kind : TokenKind} {value : String} {text : List Char}

theorem kind_ne_eof (h : Lexeme kind value text) : kind ≠ .eof := by
  rintro rfl
  cases h

theorem spells (h : Lexeme kind value text) : Spells kind text value.toList := by
  cases h with
  | identifier =>
    rw [String.toList_ofList]
    exact .identifier
  | number =>
    rw [String.toList_ofList]
    exact .number
  | entryRoutine =>
    rw [String.toList_ofList]
    exact .entryRoutine
  | header =>
    rw [String.toList_ofList]
    exact .header
  | keyword => exact .keyword
  | symbol => exact .symbol
  | string h =>
    rw [String.toList_ofList]
    exact .string (Pattern.unescaped_flatten h)
  | char h =>
    rw [String.toList_ofList]
    refine .char ?_
    simpa using Pattern.unescaped_glyph h .nil

/-- Of the lexemes that are names, those that are not reserved are identifiers. -/
theorem identifier_iff (h : Lexeme kind value text) (hName : Pattern.isName text = true) :
    kind = .identifier ↔ String.ofList text ∉ Keyword.spellings.map Prod.fst := by
  cases h with
  | identifier _ hFree => exact ⟨fun _ => hFree, fun _ => rfl⟩
  | keyword h =>
    rw [String.ofList_toList]
    have hWord : _ ∈ Keyword.spellings.map Prod.fst := List.mem_map_of_mem h
    exact ⟨fun hk => (by cases hk), fun hFree => absurd hWord hFree⟩
  | number hSome hDigits =>
    obtain ⟨c, cs, rfl⟩ := List.exists_cons_of_ne_nil hSome
    rw [List.cons_append, Pattern.isName,
      Pattern.isNameStart_of_isDigit (hDigits c List.mem_cons_self)] at hName
    cases hName
  | string | char | entryRoutine | header => cases hName
  | symbol s => cases s <;> cases hName

end Lexeme

/-! ### Spans -/

namespace Span

def textIn (source : String) (s : Span) : String :=
  Text.between source s.start.offset s.stop.offset

/-- One span comes before another, and only what is skipped is between them. -/
def Precedes (source : String) (s t : Span) : Prop :=
  s.stop.offset ≤ t.start.offset ∧
    Skipped (Text.between source t.start.offset source.utf8ByteSize).toList
      (Text.between source s.stop.offset t.start.offset).toList

theorem precedes_of_skipped {source : String} {before gap rest : List Char} {s t : Span}
    (hSource : source.toList = before ++ gap ++ rest) (hGap : Skipped rest gap)
    (hs : s.stop.offset = Text.byteLength before)
    (ht : t.start.offset = Text.byteLength (before ++ gap)) : s.Precedes source t := by
  have hStart : t.start.offset = Text.byteLength before + Text.byteLength gap := by
    rw [ht, Text.byteLength_append]
  refine ⟨by omega, ?_⟩
  rw [Text.between_end hSource ht, Text.between_eq hSource hs hStart]
  exact hGap

end Span

/-- The token stands at its span: some whole characters, which are the token that it is. -/
structure Token.StandsIn (source : String) (t : Token) : Prop where
  nonempty : t.span.start.offset < t.span.stop.offset
  start_valid : String.Pos.Raw.IsValid source ⟨t.span.start.offset⟩
  stop_valid : String.Pos.Raw.IsValid source ⟨t.span.stop.offset⟩
  lexeme : Lexeme t.kind t.value (t.span.textIn source).toList

theorem Token.standsIn_of_eq {source value : String} {before text after : List Char} {span : Span}
    {kind : TokenKind} (h : source.toList = before ++ text ++ after)
    (hStart : span.start.offset = Text.byteLength before)
    (hStop : span.stop.offset = Text.byteLength before + Text.byteLength text)
    (hText : Lexeme kind value text) : Token.StandsIn source ⟨kind, value, span⟩ where
  nonempty := by
    have hSome := Text.byteLength_pos hText.ne_nil
    simp only
    omega
  start_valid := Text.isValid_of_eq (h.trans (List.append_assoc before text after)) hStart
  stop_valid := Text.isValid_of_eq h (hStop.trans (Text.byteLength_append before text).symm)
  lexeme := by
    rw [Span.textIn, Text.between_eq h hStart hStop]
    exact hText

namespace Tiled

variable {source : String} {cursor : Cursor} {before cs : List Char} {tokens : List Token}
  {texts : List (List Char)}

/-- A tiling of the end of a source, as its spans tell it.  The source has to be short enough for
them. -/
theorem spans (h : Tiled cursor cs tokens texts) (previous : Span) (hAt : cursor.At before cs)
    (hSource : cursor.source = source.toList) (hSize : source.utf8ByteSize < 2 ^ 32)
    (hPrevious : previous.stop.offset = cursor.offset) :
    texts = tokens.map (fun t => (t.span.textIn source).toList) ∧
      (∀ t ∈ tokens, t.StandsIn source) ∧
      (previous :: (tokens.map Token.span ++ [Span.ofOffsets cursor.file source.utf8ByteSize
        source.utf8ByteSize])).IsChain (Span.Precedes source) := by
  induction h generalizing before previous with
  | @done cursor gap hGap =>
    rw [List.map_nil, List.map_nil, List.nil_append, List.isChain_pair]
    have hAll : source.toList = before ++ gap := hSource.symm.trans hAt.source_eq
    refine ⟨rfl, List.forall_mem_nil _, Span.precedes_of_skipped
      (hAll.trans (List.append_nil _).symm) hGap (hPrevious.trans hAt.offset_eq) ?_⟩
    rw [← hAll, Text.byteLength_toList]
    rfl
  | @token cursor start gap text rest kind value tokens texts hGap hText hStart _ ih =>
    rw [List.append_assoc] at hAt
    have hStarts : start.At (before ++ gap) (text ++ rest) := hStart ▸ hAt.advance
    have hStops := hStarts.advance
    have hSame : start.source = source.toList := by
      rw [hStart]
      exact hSource
    have hGapped : source.toList = before ++ gap ++ (text ++ rest) :=
      hSame.symm.trans hStarts.source_eq
    have hWhole : source.toList = before ++ gap ++ text ++ rest :=
      hSame.symm.trans hStops.source_eq
    have hEnd : start.offset + Text.byteLength text < 2 ^ 32 := by
      have hLast := hStarts.offset_add
      rw [hSame, Text.byteLength_toList, Text.byteLength_append] at hLast
      omega
    have hStop : start.offset + Text.byteLength text =
        Text.byteLength (before ++ gap) + Text.byteLength text := by
      rw [hStarts.offset_eq]
    have hFile : cursor.file = start.file := by
      rw [hStart]
      rfl
    rw [Cursor.spanOf_eq hEnd, hFile]
    obtain ⟨hTexts, hStands, hChain⟩ := ih (Span.ofOffsets start.file start.offset
      (start.offset + Text.byteLength text)) hStops hSame rfl
    refine ⟨?_, List.forall_mem_cons.mpr ⟨?_, hStands⟩, ?_⟩
    · rw [List.map_cons, ← hTexts]
      exact congrArg (· :: texts) (Text.between_eq hWhole hStarts.offset_eq hStop).symm
    · exact Token.standsIn_of_eq hWhole hStarts.offset_eq hStop hText
    · rw [List.map_cons, List.cons_append, List.isChain_cons_cons]
      exact ⟨Span.precedes_of_skipped hGapped hGap (hPrevious.trans hAt.offset_eq)
        hStarts.offset_eq, hChain⟩

end Tiled

theorem Token.atEnd_eq {file : String} {size : Nat} (h : size < 2 ^ 32) :
    Token.atEnd file size = ⟨.eof, "EOF", Span.ofOffsets file size size⟩ := by
  rw [Token.atEnd, Token.endAt, Position.behind, narrow_of_lt h]
  rfl

/-- The tokens of a source that is short enough for its spans. -/
theorem tokenize_stands {source file : String} {tokens : List Token}
    (hSize : source.utf8ByteSize < 2 ^ 32) (h : tokenize source file = .ok tokens) :
    ∃ read, tokens = read ++
        [⟨.eof, "EOF", Span.ofOffsets file source.utf8ByteSize source.utf8ByteSize⟩] ∧
      (∀ t ∈ read, t.span.start.file = file ∧ t.StandsIn source) ∧
      (Span.ofOffsets file 0 0 :: tokens.map Token.span).IsChain (Span.Precedes source) := by
  obtain ⟨read, texts, hTokens, hTiled⟩ := tokenize_tiled h
  obtain ⟨-, hStands, hChain⟩ :=
    hTiled.spans (Span.ofOffsets file 0 0) (.start source file) rfl hSize rfl
  rw [Token.atEnd_eq hSize] at hTokens
  refine ⟨read, hTokens, fun t ht => ⟨hTiled.file_eq t ht, hStands t ht⟩, ?_⟩
  rw [hTokens, List.map_append, List.map_singleton]
  exact hChain

/-- The tokens of a source of less than 2^32 bytes tile it.  The last token and only the last is the
end token, of the span at the end of the source.  Every other token stands at a span of whole
characters, at least one, and these are the token that it is: its kind and its text determine its
value, and if it is a name, it is an identifier if and only if it is not reserved.  From the start
of the source to the end token, each span comes before the next, and between them are only blanks,
comments up to the end of their line and closed comments. -/
theorem tokenize_tiles {source file : String} {tokens : List Token}
    (hSize : source.utf8ByteSize < 2 ^ 32) (h : tokenize source file = .ok tokens) :
    ∃ read, tokens = read ++
        [⟨.eof, "EOF", Span.ofOffsets file source.utf8ByteSize source.utf8ByteSize⟩] ∧
      (∀ t ∈ read, t.kind ≠ .eof ∧ t.StandsIn source ∧
        (∀ value, Spells t.kind (t.span.textIn source).toList value ↔ value = t.value.toList) ∧
        (Pattern.isName (t.span.textIn source).toList = true →
          (t.kind = .identifier ↔
            t.span.textIn source ∉ Keyword.spellings.map Prod.fst))) ∧
      (Span.ofOffsets file 0 0 :: tokens.map Token.span).IsChain (Span.Precedes source) := by
  obtain ⟨read, hTokens, hRead, hChain⟩ := tokenize_stands hSize h
  refine ⟨read, hTokens, fun t ht => ?_, hChain⟩
  have hStands := (hRead t ht).2
  refine ⟨hStands.lexeme.kind_ne_eof, hStands, fun value => ⟨fun hValue => ?_, ?_⟩, fun hName => ?_⟩
  · exact hValue.unique hStands.lexeme.spells
  · rintro rfl
    exact hStands.lexeme.spells
  · rw [hStands.lexeme.identifier_iff hName, String.ofList_toList]

/-- Comments are between the tokens, and an escape is in one. -/
theorem tokenize_tiles_comments : ∃ tokens read,
    tokenize "if /*é*/ x = '\\n'// 1" "a" = .ok tokens ∧
    tokens.map Token.span = [Span.ofOffsets "a" 0 2, Span.ofOffsets "a" 10 11,
      Span.ofOffsets "a" 12 13, Span.ofOffsets "a" 14 18, Span.ofOffsets "a" 22 22] ∧
    tokens.map Token.value = ["if", "x", "=", "\n", "EOF"] ∧
    tokens = read ++ [⟨.eof, "EOF", Span.ofOffsets "a" 22 22⟩] ∧
    (∀ t ∈ read, t.kind ≠ .eof ∧ t.StandsIn "if /*é*/ x = '\\n'// 1" ∧
      Spells t.kind (t.span.textIn "if /*é*/ x = '\\n'// 1").toList t.value.toList) ∧
    (Span.ofOffsets "a" 0 0 :: tokens.map Token.span).IsChain
      (Span.Precedes "if /*é*/ x = '\\n'// 1") := by
  have hRun : tokenize "if /*é*/ x = '\\n'// 1" "a" = .ok [
      ⟨.keyword .ifWord, "if", Span.ofOffsets "a" 0 2⟩,
      ⟨.identifier, "x", Span.ofOffsets "a" 10 11⟩,
      ⟨.symbol .assign, "=", Span.ofOffsets "a" 12 13⟩,
      ⟨.char, "\n", Span.ofOffsets "a" 14 18⟩, ⟨.eof, "EOF", Span.ofOffsets "a" 22 22⟩] := by
    cbv
  obtain ⟨read, hTokens, hRead, hChain⟩ := tokenize_tiles (by decide) hRun
  refine ⟨_, read, hRun, rfl, rfl, hTokens, fun t ht => ?_, hChain⟩
  obtain ⟨hEnd, hStands, hValue, -⟩ := hRead t ht
  exact ⟨hEnd, hStands, (hValue _).mpr rfl⟩

end StageScript

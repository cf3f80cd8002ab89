import Mathlib
import StageScript.Proofs.Token.Cut

/-!
# Literals spell every value

Every text is the value of a string and every character the value of a character literal: it is
enough to escape backslashes, quotes and the characters that have an escape of their own.  The
pattern that finds the end of a literal and the reading of its escapes go through the same pieces
(`Pattern.Glyph`), so neither depends on what stands behind the literal, and no literal ends in the
middle of an escape.

`scan_shift` moves a scan to another place of the source; with it, what is read behind a literal is
what is read without it (`literals_spell`).  The span of a literal of 2^32 bytes or more is shorter
than the literal (`literals_spell_overflow`).
-/

namespace StageScript

/-! ### Escapes -/

namespace Pattern

def escapeChar : Char → List Char
  | '\\' => ['\\', '\\']
  | '"' => ['\\', '"']
  | '\'' => ['\\', '\'']
  | '\n' => ['\\', 'n']
  | '\t' => ['\\', 't']
  | '\r' => ['\\', 'r']
  | '\x00' => ['\\', '0']
  | c => [c]

/-- Whether `unescape` comes to a backslash with nothing behind it. -/
def meetsLoneBackslash : List Char → Bool
  | [] => false
  | '\\' :: [] => true
  | '\\' :: _ :: cs => meetsLoneBackslash cs
  | _ :: cs => meetsLoneBackslash cs

variable {quote : Char} {glyph : List Char}

theorem glyph_escapeChar (hQuote : quote = '"' ∨ quote = '\'') (c : Char) :
    Glyph quote (escapeChar c) := by
  rw [escapeChar.eq_def]
  split
  case h_8 hBackslash hDouble hSingle _ _ _ _ =>
    refine .plain ?_ hBackslash
    rcases hQuote with rfl | rfl
    · exact hDouble
    · exact hSingle
  all_goals exact .escape (by decide)

theorem meetsLoneBackslash_cons_of_ne {c : Char} (h : c ≠ '\\') (cs : List Char) :
    meetsLoneBackslash (c :: cs) = meetsLoneBackslash cs := by
  rw [meetsLoneBackslash]
  · exact fun hc => absurd hc h
  · exact fun _ _ hc => absurd hc h

theorem unescape_escapeChar (c : Char) (rest : List Char) :
    unescape (escapeChar c ++ rest) = c :: unescape rest := by
  rw [escapeChar.eq_def]
  split
  case h_8 hBackslash _ _ _ _ _ _ => exact unescape_cons_of_ne hBackslash rest
  all_goals rfl

/-- Reading escapes undoes writing them. -/
theorem unescape_escape (cs : List Char) : unescape (cs.flatMap escapeChar) = cs := by
  induction cs with
  | nil => rfl
  | cons c cs ih => rw [List.flatMap_cons, unescape_escapeChar, ih]

theorem length_unescape_glyph (h : Glyph quote glyph) : (unescape glyph).length = 1 := by
  cases h with
  | plain _ hEscape => rw [unescape_cons_of_ne hEscape, unescape, List.length_singleton]
  | escape => rfl

theorem meetsLoneBackslash_glyph (h : Glyph quote glyph) (rest : List Char) :
    meetsLoneBackslash (glyph ++ rest) = meetsLoneBackslash rest := by
  cases h with
  | plain _ hEscape => exact meetsLoneBackslash_cons_of_ne hEscape rest
  | escape => rfl

theorem meetsLoneBackslash_flatten {glyphs : List (List Char)} (h : ∀ g ∈ glyphs, Glyph quote g) :
    meetsLoneBackslash glyphs.flatten = false := by
  induction glyphs with
  | nil => rfl
  | cons g glyphs ih =>
    obtain ⟨hGlyph, hGlyphs⟩ := List.forall_mem_cons.mp h
    rw [List.flatten_cons, meetsLoneBackslash_glyph hGlyph, ih hGlyphs]

end Pattern

/-- A literal of a text: the inside is between quotes, and no backslash stands at its end alone. -/
theorem Lexeme.exists_inside {kind : TokenKind} {value : String} {text : List Char}
    (h : Lexeme kind value text) (hk : kind = .string ∨ kind = .char) :
    (kind = .char → value.length = 1) ∧ ∃ quote inner, text = quote :: (inner ++ [quote]) ∧
      value = String.ofList (Pattern.unescape inner) ∧
      Pattern.meetsLoneBackslash inner = false := by
  cases h with
  | string hGlyphs =>
    refine ⟨fun hChar => ?_, '"', _, rfl, rfl, Pattern.meetsLoneBackslash_flatten hGlyphs⟩
    cases hChar
  | @char glyph hGlyph =>
    refine ⟨fun _ => ?_, '\'', glyph, rfl, rfl, ?_⟩
    · rw [String.length_ofList, Pattern.length_unescape_glyph hGlyph]
    · rw [← List.append_nil glyph, Pattern.meetsLoneBackslash_glyph hGlyph]
      rfl
  | identifier | keyword | number | entryRoutine | header | symbol =>
    rcases hk with hk | hk <;> cases hk

/-! ### Moved scans -/

def Position.shift (k : Nat) (p : Position) : Position := .behind p.file (p.offset + k)

def Span.shift (k : Nat) (s : Span) : Span := ⟨s.start.shift k, s.stop.shift k⟩

def Token.shift (k : Nat) (t : Token) : Token := { t with span := t.span.shift k }

def Diagnostic.shift (k : Nat) (d : Diagnostic) : Diagnostic :=
  { d with position := d.position.shift k }

/-- A scan of the same text `k` bytes further on. -/
def Scan.shift (k : Nat) (s : Scan) : Scan :=
  ⟨s.tokens.map (Token.shift k), s.stop.shift k, s.unread⟩

theorem Scan.shift_cons (k : Nat) (token : Option Token) (s : Scan) :
    (s.cons token).shift k = (s.shift k).cons (token.map (Token.shift k)) := by
  cases token with
  | none => rfl
  | some token => rfl

theorem Position.shift_behind (file : String) (bytes k : Nat) :
    (behind file bytes).shift k = behind file (bytes + k) := by
  rw [shift, behind, behind, behind, narrow_narrow_add]

theorem Span.shift_ofBytes (file : String) (start stop k : Nat) :
    (ofBytes file start stop).shift k = ofBytes file (start + k) (stop + k) := by
  rw [shift, ofBytes, ofBytes, Position.shift_behind, Position.shift_behind]

theorem Span.ofBytes_zero_eq_iff {file : String} {size : Nat} :
    ofBytes file 0 size = ofOffsets file 0 size ↔ size < 2 ^ 32 := by
  constructor
  · exact fun h => narrow_eq_self_iff.mp (congrArg (fun s : Span => s.stop.offset) h)
  · intro h
    rw [ofBytes, Position.behind, Position.behind, narrow_of_lt h]
    rfl

/-- Where a text stands in its source only moves what is read from it. -/
theorem scan_shift {cursor other : Cursor} {k : Nat} (cs : List Char)
    (hOffset : other.offset = cursor.offset + k) (hFile : other.file = cursor.file) :
    scan other cs = (scan cursor cs).shift k := by
  have hPosition : ∀ {c d : Cursor}, d.offset = c.offset + k → d.file = c.file →
      c.position.shift k = d.position := by
    intro c d hd hf
    rw [Cursor.position, Cursor.position, Position.shift_behind, hd, hf]
  induction cursor, cs using scan_induction generalizing other with
  | nil cursor =>
    rw [scan, scan, Scan.shift, hPosition hOffset hFile]
    rfl
  | stuck cursor c cs hFirst =>
    rw [scan_of_first?_eq_none hFirst, scan_of_first?_eq_none hFirst, Scan.shift,
      hPosition hOffset hFile]
    rfl
  | step cursor cs pattern n hFirst ih =>
    have hNext : (other.advance (Text.byteLength (cs.take n))).offset =
        (cursor.advance (Text.byteLength (cs.take n))).offset + k := by
      rw [Cursor.advance, Cursor.advance, hOffset, Nat.add_right_comm]
    have hSpan : (cursor.spanOf (Text.byteLength (cs.take n))).shift k =
        other.spanOf (Text.byteLength (cs.take n)) := by
      rw [Cursor.spanOf, Cursor.spanOf, Span.shift_ofBytes, hOffset, hFile, Nat.add_right_comm]
    rw [scan_of_first? hFirst, scan_of_first? hFirst, Scan.shift_cons, ih hNext hFile,
      Option.map_map, ← hSpan]
    rfl

/-- What is read from a source that begins with a token of `size` bytes, by what is read from the
rest of it alone: the token before the tokens of the rest, or the diagnostic of the rest. -/
def Token.before (token : Token) (size : Nat) :
    Except Diagnostic (List Token) → Except Diagnostic (List Token)
  | .ok tokens => .ok (token :: tokens.map (shift size))
  | .error d => .error (d.shift size)

theorem Scan.outcome_cons_shift (s : Scan) (token : Token) (k : Nat) :
    ((s.shift k).cons (some token)).outcome = token.before k s.outcome := by
  obtain ⟨tokens, stop, unread⟩ := s
  cases unread with
  | some c => rfl
  | none =>
    show Except.ok (token :: (tokens.map (Token.shift k) ++ [Token.endAt (stop.shift k)])) =
      Except.ok (token :: (tokens ++ [Token.endAt stop]).map (Token.shift k))
    rw [List.map_append]
    rfl

section Begins

variable {kind : TokenKind} {value : String} {text : List Char} {pattern : Pattern}

/-- A source that begins with a token, where the pattern of the token takes it as a whole. -/
theorem tokenize_append (rest file : String)
    (hFirst : Pattern.first? (text ++ rest.toList) = some (pattern, text.length))
    (hToken : pattern.token? text = some (kind, value)) :
    tokenize (String.ofList text ++ rest) file =
      Token.before ⟨kind, value, Span.ofBytes file 0 (Text.byteLength text)⟩
        (Text.byteLength text) (tokenize rest file) := by
  have hSpan : (Cursor.start (String.ofList text ++ rest) file).spanOf (Text.byteLength text) =
      .ofBytes file 0 (Text.byteLength text) := by
    rw [Cursor.spanOf, Cursor.start, Nat.zero_add]
  rw [tokenize_eq_outcome, tokenize_eq_outcome, ← Scan.outcome_cons_shift, String.toList_append,
    String.toList_ofList, scan_of_first? hFirst, List.take_left, List.drop_left, hToken, ← hSpan]
  exact congrArg (fun s : Scan => (s.cons _).outcome) (scan_shift rest.toList rfl rfl)

end Begins

/-! ### Literals of values -/

namespace Literal

def ofText (v : String) : String :=
  String.ofList ('"' :: (v.toList.flatMap Pattern.escapeChar ++ ['"']))

def ofChar (c : Char) : String := String.ofList ('\'' :: (Pattern.escapeChar c ++ ['\'']))

/-- What follows the literal of a text is read on its own. -/
theorem tokenize_ofText (v rest file : String) :
    tokenize (ofText v ++ rest) file =
      Token.before ⟨.string, v, Span.ofBytes file 0 (ofText v).utf8ByteSize⟩
        (ofText v).utf8ByteSize (tokenize rest file) := by
  have hGlyphs : ∀ g ∈ v.toList.map Pattern.escapeChar, Pattern.Glyph '"' g := by
    intro g hg
    obtain ⟨c, -, rfl⟩ := List.mem_map.mp hg
    exact Pattern.glyph_escapeChar (.inl rfl) c
  have hFirst : Pattern.first? (_ ++ rest.toList) = _ := Pattern.first?_string hGlyphs
  rw [← List.flatMap_def] at hFirst
  rw [← Text.byteLength_toList, ofText, String.toList_ofList]
  refine tokenize_append rest file hFirst ?_
  rw [Pattern.token?, Pattern.inside, List.drop_one, List.tail_cons, List.dropLast_concat,
    Pattern.unescape_escape, String.ofList_toList]

/-- The literal of a character is two quotes and at most two characters between them. -/
theorem utf8ByteSize_ofChar (c : Char) : (ofChar c).utf8ByteSize ≤ 10 := by
  have hBytes : ∀ cs : List Char, Text.byteLength cs ≤ 4 * cs.length := by
    intro cs
    induction cs with
    | nil => exact Nat.le_refl 0
    | cons d cs ih =>
      have := d.utf8Size_le_four
      rw [Text.byteLength, List.length_cons]
      omega
  have hGlyph : (Pattern.escapeChar c).length ≤ 2 := by
    rw [Pattern.escapeChar.eq_def]
    split <;> simp
  have hQuote : '\''.utf8Size = 1 := rfl
  have hInner := hBytes (Pattern.escapeChar c)
  rw [← Text.byteLength_toList, ofChar, String.toList_ofList, Text.byteLength,
    Text.byteLength_append, Text.byteLength, Text.byteLength, hQuote]
  omega

/-- A literal can be of any length. -/
theorem utf8ByteSize_ofText_replicate (n : Nat) :
    (ofText (String.ofList (List.replicate n 'a'))).utf8ByteSize = n + 2 := by
  have hEscape : (List.replicate n 'a').flatMap Pattern.escapeChar = List.replicate n 'a' := by
    induction n with
    | zero => rfl
    | succ n ih =>
      rw [List.replicate_succ, List.flatMap_cons, ih]
      rfl
  have hQuote : Text.byteLength ['"'] = 1 ∧ '"'.utf8Size = 1 := ⟨rfl, rfl⟩
  rw [← Text.byteLength_toList, ofText, String.toList_ofList, String.toList_ofList, hEscape,
    Text.byteLength, Text.byteLength_append, Text.byteLength_replicate rfl, hQuote.1, hQuote.2]
  omega

theorem tokenize_ofChar (c : Char) (rest file : String) :
    tokenize (ofChar c ++ rest) file =
      Token.before ⟨.char, String.singleton c, Span.ofOffsets file 0 (ofChar c).utf8ByteSize⟩
        (ofChar c).utf8ByteSize (tokenize rest file) := by
  have hFirst : Pattern.first? (_ ++ rest.toList) = _ :=
    Pattern.first?_char (Pattern.glyph_escapeChar (.inr rfl) c)
  have hToken : Pattern.char.token? ('\'' :: (Pattern.escapeChar c ++ ['\''])) =
      some (.char, String.singleton c) := by
    rw [Pattern.token?, Pattern.inside, List.drop_one, List.tail_cons, List.dropLast_concat,
      ← List.append_nil (Pattern.escapeChar c), Pattern.unescape_escapeChar, Pattern.unescape,
      String.singleton_eq_ofList]
  rw [← Span.ofBytes_zero_eq_iff.mpr ((utf8ByteSize_ofChar c).trans_lt (by decide)),
    ← Text.byteLength_toList, ofChar, String.toList_ofList]
  exact tokenize_append rest file hFirst hToken

end Literal

/-- Literals spell every value.  A source that begins with the string literal of a text or with the
character literal of a character has the token of this value first; behind it are the tokens of the
rest, and the source can be read if and only if the rest can.  The span of the token is the one of
the literal if and only if the literal has less than 2^32 bytes, as every character literal has.
The other way round, in every source that can be read the value of a character token is one
character, and what a string or character token was read from has no backslash at the end of its
inside that escapes nothing. -/
theorem literals_spell (file : String) :
    (∀ v rest : String,
      tokenize (Literal.ofText v ++ rest) file =
        Token.before ⟨.string, v, Span.ofBytes file 0 (Literal.ofText v).utf8ByteSize⟩
          (Literal.ofText v).utf8ByteSize (tokenize rest file) ∧
      (Span.ofBytes file 0 (Literal.ofText v).utf8ByteSize =
          Span.ofOffsets file 0 (Literal.ofText v).utf8ByteSize ↔
        (Literal.ofText v).utf8ByteSize < 2 ^ 32)) ∧
    (∀ (c : Char) (rest : String), tokenize (Literal.ofChar c ++ rest) file =
      Token.before
        ⟨.char, String.singleton c, Span.ofOffsets file 0 (Literal.ofChar c).utf8ByteSize⟩
        (Literal.ofChar c).utf8ByteSize (tokenize rest file)) ∧
    ∀ (source : String) (tokens : List Token), tokenize source file = .ok tokens →
      ∃ read last texts, tokens = read ++ [last] ∧ last.kind = .eof ∧
        Tiled (.start source file) source.toList read texts ∧
        List.Forall₂ (fun t text => (t.kind = .char → t.value.length = 1) ∧
          (t.kind = .string ∨ t.kind = .char → ∃ quote inner,
            text = quote :: (inner ++ [quote]) ∧
            t.value = String.ofList (Pattern.unescape inner) ∧
            Pattern.meetsLoneBackslash inner = false)) read texts := by
  refine ⟨fun v rest => ⟨Literal.tokenize_ofText v rest file, Span.ofBytes_zero_eq_iff⟩,
    fun c rest => Literal.tokenize_ofChar c rest file, fun source tokens h => ?_⟩
  obtain ⟨read, texts, rfl, hTiled⟩ := tokenize_tiled h
  refine ⟨read, _, texts, rfl, rfl, hTiled, hTiled.lexemes.imp fun t text hLexeme => ?_⟩
  exact ⟨fun hk => (hLexeme.exists_inside (.inr hk)).1 hk,
    fun hk => (hLexeme.exists_inside hk).2⟩

/-- A text of everything that needs an escape, before a quote as a character and before what cannot
be read. -/
theorem literals_spell_escapes :
    Literal.ofText "\\\"é'\n\t\r\x00" = "\"\\\\\\\"é\\'\\n\\t\\r\\0\"" ∧
    tokenize (Literal.ofText "\\\"é'\n\t\r\x00" ++ Literal.ofChar '\'') "a" =
      .ok [⟨.string, "\\\"é'\n\t\r\x00", Span.ofOffsets "a" 0 18⟩,
        ⟨.char, "'", Span.ofOffsets "a" 18 22⟩, Token.atEnd "a" 22] ∧
    tokenize (Literal.ofText "\\\"é'\n\t\r\x00" ++ "?") "a" =
      .error ⟨.unrecognised "?", ⟨18, "a"⟩⟩ ∧
    "'".length = 1 := by
  obtain ⟨hText, hChar, hInside⟩ := literals_spell "a"
  have hQuote : tokenize (Literal.ofChar '\'' ++ "") "a" =
      .ok [⟨.char, "'", Span.ofOffsets "a" 0 4⟩, Token.atEnd "a" 4] := by
    rw [hChar]
    cbv
  have hRead : tokenize (Literal.ofText "\\\"é'\n\t\r\x00" ++ Literal.ofChar '\'') "a" =
      .ok ([⟨.string, "\\\"é'\n\t\r\x00", Span.ofOffsets "a" 0 18⟩,
        ⟨.char, "'", Span.ofOffsets "a" 18 22⟩] ++ [Token.atEnd "a" 22]) := by
    rw [String.append_empty] at hQuote
    rw [(hText _ _).1, hQuote]
    cbv
  refine ⟨by cbv, hRead, ?_, ?_⟩
  · rw [(hText _ _).1]
    cbv
  · obtain ⟨read, last, texts, hTokens, -, -, hTexts⟩ := hInside _ _ hRead
    obtain ⟨rfl, -⟩ := List.append_inj' hTokens rfl
    cases hTexts with
    | cons _ hTexts =>
      cases hTexts with
      | cons hQuoted _ => exact hQuoted.1 rfl

/-- A literal of 2^32 + 2 bytes has a span of two. -/
theorem literals_spell_overflow : ∃ v,
    (Literal.ofText v).utf8ByteSize = 2 ^ 32 + 2 ∧
    tokenize (Literal.ofText v) "a" =
      .ok [⟨.string, v, Span.ofOffsets "a" 0 2⟩, Token.atEnd "a" 2] := by
  have hEmpty : tokenize "" "a" = .ok [Token.atEnd "a" 0] := by
    cbv
  have hRun := Literal.tokenize_ofText (String.ofList (List.replicate (2 ^ 32) 'a')) "" "a"
  rw [String.append_empty, Literal.utf8ByteSize_ofText_replicate, hEmpty] at hRun
  exact ⟨_, Literal.utf8ByteSize_ofText_replicate (2 ^ 32), hRun⟩

end StageScript

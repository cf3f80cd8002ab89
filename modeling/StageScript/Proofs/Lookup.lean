import Mathlib
import StageScript.Proofs.Lines

/-!
# Lines and bytes

The line of a place is found by characters, and places are offsets of bytes.  In UTF-8 the byte of
a newline belongs to no other character (`Text.newlineByte_mem_utf8EncodeChar`), so the lines can as
well be told by the bytes alone: the line of a byte is the longest piece around it that has no
newline before its last byte (`lookup_locates_line`).
-/

namespace StageScript

/-! ### Bytes of a text -/

namespace Text

def bytes (s : String) : List UInt8 := s.toUTF8.data.toList

def newlineByte : UInt8 := 10

def encode (cs : List Char) : List UInt8 := cs.flatMap String.utf8EncodeChar

theorem bytes_eq_encode (s : String) : bytes s = encode s.toList := by
  rw [bytes, String.toUTF8_eq_toByteArray, ← String.utf8Encode_toList, List.utf8Encode,
    List.data_toByteArray, encode]

theorem bytes_ofList (cs : List Char) : bytes (String.ofList cs) = encode cs := by
  rw [bytes_eq_encode, String.toList_ofList]

theorem encode_append (cs ds : List Char) : encode (cs ++ ds) = encode cs ++ encode ds :=
  List.flatMap_append

theorem encode_cons (c : Char) (cs : List Char) :
    encode (c :: cs) = String.utf8EncodeChar c ++ encode cs :=
  List.flatMap_cons

theorem length_encode (cs : List Char) : (encode cs).length = byteLength cs := by
  induction cs with
  | nil => rfl
  | cons c cs ih =>
    rw [encode_cons, List.length_append, String.length_utf8EncodeChar, ih, byteLength]

/-- All bytes of a longer encoding are above those of ASCII. -/
theorem newlineByte_mem_utf8EncodeChar {c : Char} :
    newlineByte ∈ String.utf8EncodeChar c ↔ c = '\n' := by
  have hc : c = '\n' ↔ c.val.toNat = 10 := by
    constructor
    · rintro rfl
      rfl
    · exact fun h => Char.ext (UInt32.toNat_inj.mp h)
  rw [hc, String.utf8EncodeChar]
  split_ifs <;>
    simp only [newlineByte, List.mem_cons, List.not_mem_nil, or_false, ← UInt8.toNat_inj,
      UInt8.toNat_ofNat', UInt8.reduceToNat] <;> omega

theorem newlineByte_mem_encode {cs : List Char} : newlineByte ∈ encode cs ↔ '\n' ∈ cs := by
  simp [encode, newlineByte_mem_utf8EncodeChar]

theorem count_encode (cs : List Char) : (encode cs).count newlineByte = cs.count '\n' := by
  induction cs with
  | nil => rfl
  | cons c cs ih =>
    rw [encode_cons, List.count_append, ih, List.count_cons, Nat.add_comm]
    by_cases hc : c = '\n'
    · subst hc
      rfl
    · rw [if_neg (by simpa using hc)]
      exact congrArg _ (List.count_eq_zero.mpr (mt newlineByte_mem_utf8EncodeChar.mp hc))

/-- A byte belongs to a character. -/
theorem exists_char_of_lt {cs : List Char} {p : Nat} (h : p < byteLength cs) :
    ∃ before c after k, cs = before ++ c :: after ∧ k < c.utf8Size ∧ p = byteLength before + k := by
  induction cs generalizing p with
  | nil => exact absurd h (Nat.not_lt_zero p)
  | cons c cs ih =>
    rw [byteLength] at h
    rcases Nat.lt_or_ge p c.utf8Size with hp | hp
    · exact ⟨[], c, cs, p, rfl, hp, (Nat.zero_add p).symm⟩
    · obtain ⟨before, d, after, k, rfl, hk, hEq⟩ := ih (p := p - c.utf8Size) (by omega)
      refine ⟨c :: before, d, after, k, rfl, hk, ?_⟩
      rw [byteLength]
      omega

/-- The newlines among the bytes before a byte of the character `c`. -/
theorem count_take_encode {before after : List Char} {c : Char} {k : Nat} (hk : k < c.utf8Size) :
    ((encode (before ++ c :: after)).take (byteLength before + k)).count newlineByte =
      before.count '\n' := by
  -- A newline is one byte, so no byte of it is before another one.
  have hNone : newlineByte ∉ (String.utf8EncodeChar c).take k := by
    intro hMem
    obtain rfl := newlineByte_mem_utf8EncodeChar.mp (List.mem_of_mem_take hMem)
    obtain rfl : k = 0 := Nat.lt_one_iff.mp hk
    cases hMem
  have hFits : k ≤ (String.utf8EncodeChar c).length := by
    rw [String.length_utf8EncodeChar]
    exact hk.le
  rw [encode_append, encode_cons, ← length_encode, List.take_length_add_append,
    List.take_append_of_le_length hFits, List.count_append, count_encode,
    List.count_eq_zero.mpr hNone, Nat.add_zero]

end Text

/-! ### Pieces of the bytes -/

namespace Line

open Text (bytes encode newlineByte encode_append length_encode)

/-- A piece of the text around the byte `p` with no newline before its last byte. -/
structure Holds (text : List UInt8) (p start stop : Nat) : Prop where
  start_le : start ≤ p
  lt_stop : p < stop
  stop_le : stop ≤ text.length
  newline_last : ∀ i, start ≤ i → i + 1 < stop → text[i]? ≠ some newlineByte

section Cut

/-! A line `line` cut out of a text: whole lines stand before it, and it ends with its newline or
with the text. -/

variable {lead body line rest : List UInt8} {p : Nat}
  (hLine : line = body ∧ rest = [] ∨ line = body ++ [newlineByte])
  (hStart : lead.length ≤ p) (hStop : p < lead.length + line.length)

include hLine hStart hStop

theorem holds_of_cut (hBody : newlineByte ∉ body) :
    Holds (lead ++ (line ++ rest)) p lead.length (lead.length + line.length) where
  start_le := hStart
  lt_stop := hStop
  stop_le := by
    rw [List.length_append, List.length_append]
    omega
  newline_last i hi hEnd hNewline := by
    have hShort : i - lead.length < body.length := by
      rcases hLine with ⟨rfl, -⟩ | rfl
      · omega
      · rw [List.length_append, List.length_singleton] at hEnd
        omega
    have hAt : (line ++ rest)[i - lead.length]? = body[i - lead.length]? := by
      rcases hLine with ⟨rfl, rfl⟩ | rfl
      · rw [List.append_nil]
      · rw [List.append_assoc, List.getElem?_append_left hShort]
    rw [List.getElem?_append_right hi, hAt] at hNewline
    exact hBody (List.mem_of_getElem? hNewline)

/-- A piece that holds a byte of the line does not reach over its ends. -/
theorem Holds.within_cut {start stop : Nat}
    (hLead : lead = [] ∨ ∃ front, lead = front ++ [newlineByte])
    (h : Holds (lead ++ (line ++ rest)) p start stop) :
    lead.length ≤ start ∧ stop ≤ lead.length + line.length := by
  obtain ⟨hFrom, hTo, hEnd, hNone⟩ := h
  constructor
  · rcases hLead with rfl | ⟨front, rfl⟩
    · exact Nat.zero_le start
    · rw [List.length_append, List.length_singleton] at hStart ⊢
      by_contra hLow
      -- The newline before the line is in the piece, and the byte `p` is behind it.
      refine hNone front.length (by omega) (by omega) ?_
      rw [List.append_assoc, List.getElem?_append_right le_rfl, Nat.sub_self]
      rfl
  · rcases hLine with ⟨rfl, rfl⟩ | rfl
    · rwa [List.append_nil, List.length_append] at hEnd
    · rw [List.length_append, List.length_singleton] at hStop ⊢
      by_contra hHigh
      -- The newline of the line is in the piece, and the piece goes on.
      refine hNone (lead.length + body.length) (by omega) (by omega) ?_
      rw [List.getElem?_append_right (Nat.le_add_right _ _), Nat.add_sub_cancel_left,
        List.append_assoc, List.getElem?_append_right le_rfl, Nat.sub_self]
      rfl

end Cut

/-- The line of the byte `p` of a source, as its bytes tell it. -/
structure IsAt (line : Line) (source : String) (p : Nat) : Prop where
  number_eq : line.number = ((bytes source).take p).count newlineByte + 1
  column_le : line.column ≤ p
  column_lt : line.column < line.text.utf8ByteSize
  text_eq : bytes line.text =
    ((bytes source).drop (p - line.column)).take line.text.utf8ByteSize
  holds : Holds (bytes source) p (p - line.column) (p - line.column + line.text.utf8ByteSize)
  greatest : ∀ start stop, Holds (bytes source) p start stop →
    p - line.column ≤ start ∧ stop ≤ p - line.column + line.text.utf8ByteSize

/-- A line that is cut out of the source behind whole lines is the line of each of its bytes. -/
theorem isAt_of_cut {source : String} {lead body text rest : List Char} {number column : Nat}
    (hSource : source.toList = lead ++ (text ++ rest)) (hLead : Whole lead)
    (hText : text = body ∧ rest = [] ∨ text = body ++ ['\n']) (hBody : '\n' ∉ body)
    (hColumn : column < Text.byteLength text)
    (hNumber : number =
      ((bytes source).take (Text.byteLength lead + column)).count newlineByte + 1) :
    IsAt ⟨number, String.ofList text, column⟩ source (Text.byteLength lead + column) := by
  have hBytes : bytes source = encode lead ++ (encode text ++ encode rest) := by
    rw [Text.bytes_eq_encode, hSource, encode_append, encode_append]
  have hSize : (String.ofList text).utf8ByteSize = (encode text).length := by
    rw [← Text.byteLength_toList, String.toList_ofList, length_encode]
  have hFront : Text.byteLength lead + column - column = (encode lead).length := by
    rw [Nat.add_sub_cancel, length_encode]
  have hLine : encode text = encode body ∧ encode rest = [] ∨
      encode text = encode body ++ [newlineByte] := by
    rcases hText with ⟨rfl, rfl⟩ | rfl
    · exact .inl ⟨rfl, rfl⟩
    · exact .inr (encode_append body ['\n'])
  have hWhole : encode lead = [] ∨ ∃ front, encode lead = front ++ [newlineByte] := by
    rcases hLead with rfl | ⟨front, rfl⟩
    · exact .inl rfl
    · exact .inr ⟨encode front, encode_append front ['\n']⟩
  have hStart : (encode lead).length ≤ Text.byteLength lead + column := by
    rw [length_encode]
    exact Nat.le_add_right _ _
  have hStop : Text.byteLength lead + column < (encode lead).length + (encode text).length := by
    rw [length_encode, length_encode]
    exact Nat.add_lt_add_left hColumn _
  refine ⟨hNumber, Nat.le_add_left _ _, ?_, ?_, ?_, ?_⟩
  · rwa [hSize, length_encode]
  · rw [hSize, hFront, hBytes, Text.bytes_ofList, List.drop_left, List.take_left]
  · rw [hSize, hFront, hBytes]
    exact holds_of_cut hLine hStart hStop (mt Text.newlineByte_mem_encode.mp hBody)
  · rw [hSize, hFront, hBytes]
    exact fun _ _ h => h.within_cut hLine hStart hStop hWhole

end Line

/-- A byte of the character `c` is on the line that is found for it. -/
theorem exists_isAt_of_eq {source : String} {before after : List Char} {c : Char} {k : Nat}
    (hSource : source.toList = before ++ c :: after) (hk : k < c.utf8Size) :
    ∃ line, lineAt? source (Text.byteLength before + k) = some line ∧
      line.IsAt source (Text.byteLength before + k) := by
  obtain ⟨lead, hLead, hBefore⟩ := Line.exists_whole before
  obtain ⟨body, rest, hBody, hRest, hFirst⟩ := Line.exists_first_eq (c :: after)
  have hPlace : Text.byteLength before + k =
      Text.byteLength lead + (Text.byteLength (Line.last before) + k) := by
    rw [← Nat.add_assoc, ← Text.byteLength_append, ← hBefore]
  have hCut : source.toList =
      lead ++ ((Line.last before ++ Line.first (c :: after)) ++ rest) := by
    rw [List.append_assoc, ← hRest, ← List.append_assoc, ← hBefore, hSource]
  have hText : Line.last before ++ Line.first (c :: after) = Line.last before ++ body ∧ rest = [] ∨
      Line.last before ++ Line.first (c :: after) = Line.last before ++ body ++ ['\n'] := by
    rcases hFirst with ⟨hFirst, hEnd⟩ | hFirst
    · exact .inl ⟨by rw [hFirst], hEnd⟩
    · exact .inr (by rw [hFirst, List.append_assoc])
  have hNone : '\n' ∉ Line.last before ++ body := by
    rw [List.mem_append, not_or]
    exact ⟨Line.newline_notMem_last before, hBody⟩
  have hColumn := Line.lt_byteLength_append_first (Line.last before) after hk
  have hNumber : before.count '\n' + 1 =
      ((Text.bytes source).take (Text.byteLength before + k)).count Text.newlineByte + 1 := by
    rw [Text.bytes_eq_encode, hSource, Text.count_take_encode hk]
  refine ⟨_, lineAt?_of_eq hSource hk, ?_⟩
  rw [hPlace] at hNumber ⊢
  exact Line.isAt_of_cut hCut hLead hText hNone hColumn hNumber

/-- **A byte of the source is on the line found for it**, and only the places behind the last byte
have no line. -/
theorem lookup_locates_line (source : String) (p : Nat) :
    (lineAt? source p = none ↔ source.utf8ByteSize ≤ p) ∧
      (p < source.utf8ByteSize → ∃ line, lineAt? source p = some line ∧ line.IsAt source p) := by
  refine ⟨lineAt?_eq_none_iff, fun hp => ?_⟩
  rw [← Text.byteLength_toList] at hp
  obtain ⟨before, c, after, k, hSource, hk, rfl⟩ := Text.exists_char_of_lt hp
  exact exists_isAt_of_eq hSource hk

theorem lookup_locates_line_inside_character :
    lineAt? "a\né\n" 3 = some ⟨2, "é\n", 1⟩ ∧ Line.IsAt ⟨2, "é\n", 1⟩ "a\né\n" 3 := by
  have hRun : lineAt? "a\né\n" 3 = some ⟨2, "é\n", 1⟩ := by cbv
  obtain ⟨line, hLine, hAt⟩ := (lookup_locates_line "a\né\n" 3).2 (by decide)
  obtain rfl := Option.some.inj (hRun.symm.trans hLine)
  exact ⟨hRun, hAt⟩

end StageScript

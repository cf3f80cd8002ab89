import Mathlib
import StageScript.Diagnostic.Render
import StageScript.Proofs.Lines
import StageScript.Token.Scan

/-!
# The marker of a diagnostic

A rendered diagnostic ends with the line of source where it points, without its indentation, and
with a marker below it.  The marker stands behind as many characters as the line has bytes before
the place (`render_marks`).  So it is under the place if the characters before it take one byte
each, and otherwise too far to the right (`render_misplaces`).
-/

namespace StageScript

/-! ### Bytes and characters -/

namespace Text

theorem byteLength_takeWhile_add (test : Char → Bool) (cs : List Char) :
    byteLength (cs.takeWhile test) + byteLength (cs.dropWhile test) = byteLength cs := by
  rw [← byteLength_append, List.takeWhile_append_dropWhile]

theorem length_le_byteLength (cs : List Char) : cs.length ≤ byteLength cs := by
  induction cs with
  | nil => exact Nat.le_refl 0
  | cons c cs ih =>
    have := c.utf8Size_pos
    rw [byteLength, List.length_cons]
    omega

/-- Characters are as many as their bytes, if each takes one. -/
theorem byteLength_eq_length_iff (cs : List Char) :
    byteLength cs = cs.length ↔ ∀ c ∈ cs, c.utf8Size = 1 := by
  induction cs with
  | nil => simp [byteLength]
  | cons c cs ih =>
    have hRest := length_le_byteLength cs
    have hSize := c.utf8Size_pos
    rw [List.forall_mem_cons, byteLength, List.length_cons]
    constructor
    · intro h
      exact ⟨by omega, ih.mp (by omega)⟩
    · rintro ⟨hc, hcs⟩
      rw [hc, ih.mpr hcs, Nat.add_comm]

end Text

/-! ### Lines on screen -/

/-- The text ends with these two lines, each behind a newline and with a newline behind it. -/
structure Text.LastLines (text : String) (upper lower : List Char) : Prop where
  text_eq : ∃ head, text.toList = head ++ '\n' :: (upper ++ '\n' :: (lower ++ ['\n']))
  upper_line : '\n' ∉ upper
  lower_line : '\n' ∉ lower

theorem Text.toList_alignRight {s : String} (h : s.length = 1) (fill : Char) (width : Nat) :
    (alignRight fill (width + 1) s).toList = List.replicate width fill ++ s.toList := by
  rw [alignRight, h, Nat.add_sub_cancel, String.toList_append, String.toList_ofList]

namespace Diagnostic

def gutter (number : Nat) : List Char := (toString number ++ " | ").toList

def margin (number : Nat) : List Char :=
  List.replicate ((toString number).length + 1) ' ' ++ ['|', ' ']

theorem length_margin (number : Nat) : (margin number).length = (gutter number).length := by
  rw [margin, gutter, List.length_append, List.length_replicate, String.toList_append,
    List.length_append, String.length_toList]
  rfl

theorem toList_excerpt (number column : Nat) (text : List Char) :
    ∃ head, (excerpt ⟨number, String.ofList text, column⟩).toList = head ++ '\n' ::
      (gutter number ++ Text.trimRight (text.dropWhile isIndent) ++ '\n' :: (margin number ++
        List.replicate (column - Text.byteLength (text.takeWhile isIndent)) '-' ++ ['^']
          ++ ['\n'])) := by
  have hBar : "|".length = 1 := rfl
  have hMark : "^".length = 1 := rfl
  refine ⟨List.replicate ((toString number).length + 1) ' ' ++ ['|'], ?_⟩
  simp [excerpt, gutter, margin, Text.toList_alignRight hBar, Text.toList_alignRight hMark]

theorem newline_notMem_gutter (number : Nat) : '\n' ∉ gutter number := by
  have hNumber : '\n' ∉ (toString number).toList := by
    intro h
    have hDigits : (toString number).toList = Nat.toDigits 10 number := Nat.toList_repr
    rw [hDigits] at h
    cases Nat.isDigit_of_mem_toDigits (by decide) (by decide) h
  rw [gutter, String.toList_append, List.mem_append, not_or]
  exact ⟨hNumber, by decide⟩

end Diagnostic

/-! ### Trimmed lines -/

namespace Text

theorem trimRight_eq (cs : List Char) : trimRight cs = cs.rdropWhile isBlank := rfl

theorem trimRight_newline (cs : List Char) : trimRight (cs ++ ['\n']) = trimRight cs :=
  List.rdropWhile_concat_pos isBlank cs '\n' rfl

/-- Trimming stops at a character that is no blank. -/
theorem prefix_trimRight {c : Char} (h : isBlank c = false) (cs rest : List Char) :
    cs ++ [c] <+: trimRight (cs ++ c :: rest) := by
  rw [trimRight_eq]
  induction rest using List.reverseRecOn with
  | nil =>
    rw [List.rdropWhile_concat_neg _ _ _ (by rw [h]; decide)]
  | append_singleton rest d ih =>
    rw [← List.cons_append, ← List.append_assoc, List.rdropWhile_concat]
    split
    · exact ih
    · exact ⟨rest ++ [d], by simp⟩

end Text

namespace Line

/-- A trimmed line has no newline. -/
theorem newline_notMem_trimRight {cs : List Char} (h : '\n' ∉ cs) (rest : List Char) :
    '\n' ∉ Text.trimRight (cs ++ first rest) := by
  obtain ⟨body, _, hBody, -, hFirst⟩ := exists_first_eq rest
  have hTrim : Text.trimRight (cs ++ first rest) <+: cs ++ body := by
    rcases hFirst with ⟨hFirst, -⟩ | hFirst
    · rw [hFirst]
      exact List.rdropWhile_prefix _ _
    · rw [hFirst, ← List.append_assoc, Text.trimRight_newline]
      exact List.rdropWhile_prefix _ _
  intro hMem
  rcases List.mem_append.mp (hTrim.subset hMem) with hMem | hMem
  · exact h hMem
  · exact hBody hMem

end Line

/-! ### Markers -/

namespace Diagnostic

/-- What is shown of the line before a place: the line up to there without its indentation. -/
def shownBefore (before : List Char) : List Char := (Line.last before).dropWhile isIndent

/-- Up to a place that is not in the indentation, the whole indentation is dropped. -/
theorem indent_append {cs : List Char} {c : Char} (rest : List Char)
    (h : ∃ x ∈ cs ++ [c], isIndent x = false) :
    (cs ++ c :: rest).takeWhile isIndent = cs.takeWhile isIndent ∧
      (cs ++ c :: rest).dropWhile isIndent = cs.dropWhile isIndent ++ c :: rest := by
  obtain ⟨x, hMem, hx⟩ := h
  induction cs with
  | nil =>
    cases List.mem_singleton.mp hMem
    rw [List.nil_append, List.takeWhile_cons, List.dropWhile_cons, hx]
    exact ⟨rfl, rfl⟩
  | cons d cs ih =>
    rw [List.cons_append, List.takeWhile_cons, List.takeWhile_cons, List.dropWhile_cons,
      List.dropWhile_cons]
    split
    · rename_i hd
      rcases List.mem_cons.mp hMem with rfl | hMem
      · rw [hx] at hd
        cases hd
      · obtain ⟨hTake, hDrop⟩ := ih hMem
        exact ⟨congrArg (d :: ·) hTake, hDrop⟩
    · exact ⟨rfl, rfl⟩

end Diagnostic

open Diagnostic

section Marks

variable {d : Diagnostic} {source : String} {before after : List Char} {c : Char}

/-- The last two lines of a diagnostic that points at the character `c`. -/
theorem render_lastLines (hSource : source.toList = before ++ c :: after)
    (hOffset : d.position.offset = Text.byteLength before)
    (hIndent : ∃ x ∈ Line.last before ++ [c], isIndent x = false) :
    Text.LastLines (d.render source)
      (gutter (before.count '\n' + 1) ++
        Text.trimRight (shownBefore before ++ Line.first (c :: after)))
      (margin (before.count '\n' + 1) ++
        List.replicate (Text.byteLength (shownBefore before)) '-' ++ ['^']) := by
  have hLine := lineAt?_of_eq hSource c.utf8Size_pos
  rw [Nat.add_zero, ← hOffset] at hLine
  obtain ⟨rest, hFirst⟩ := Line.exists_first_cons c after
  obtain ⟨hTake, hDrop⟩ := indent_append rest hIndent
  have hColumn : Text.byteLength (Line.last before) + 0 -
      Text.byteLength ((Line.last before).takeWhile isIndent) =
        Text.byteLength (shownBefore before) := by
    rw [Nat.add_zero, ← Text.byteLength_takeWhile_add isIndent (Line.last before),
      Nat.add_sub_cancel_left]
    rfl
  have hShown : '\n' ∉ shownBefore before := fun hMem =>
    Line.newline_notMem_last before ((List.dropWhile_sublist _).subset hMem)
  obtain ⟨head, hExcerpt⟩ := toList_excerpt (before.count '\n' + 1)
    (Text.byteLength (Line.last before) + 0) (Line.last before ++ Line.first (c :: after))
  rw [hFirst, hTake, hDrop, hColumn] at hExcerpt
  rw [hFirst] at hLine ⊢
  refine ⟨⟨(d.title ++ s!"-> {d.position.file}\n").toList ++ head, ?_⟩, ?_, ?_⟩
  · rw [Diagnostic.render, hLine, Option.map_some, Option.getD_some, String.toList_append, hExcerpt]
    exact (List.append_assoc _ _ _).symm
  · rw [List.mem_append, not_or]
    exact ⟨newline_notMem_gutter _, hFirst ▸ Line.newline_notMem_trimRight hShown _⟩
  · simp [margin]

/-- The marker of a diagnostic at the character `c`, not in the indentation of its line.  The last
two lines of what is rendered are the line of source and the marker.  The first one has a gutter and
then the line without its indentation; so the characters before `c` are those of the gutter and of
`shownBefore`.  Before the marker there are as many characters as the gutter has and as
`shownBefore` has bytes.  So the marker is under `c` if and only if each of the characters of
`shownBefore` takes one byte. -/
theorem render_marks (hSource : source.toList = before ++ c :: after)
    (hOffset : d.position.offset = Text.byteLength before)
    (hIndent : ∃ x ∈ Line.last before ++ [c], isIndent x = false) :
    ∃ printed marker : List Char, Text.LastLines (d.render source) printed (marker ++ ['^']) ∧
      '^' ∉ marker ∧
      printed = gutter (before.count '\n' + 1) ++
        Text.trimRight (shownBefore before ++ Line.first (c :: after)) ∧
      (Text.isBlank c = false →
        gutter (before.count '\n' + 1) ++ shownBefore before ++ [c] <+: printed) ∧
      marker.length =
        (gutter (before.count '\n' + 1)).length + Text.byteLength (shownBefore before) ∧
      (marker.length = (gutter (before.count '\n' + 1)).length + (shownBefore before).length ↔
        ∀ x ∈ shownBefore before, x.utf8Size = 1) := by
  have hLength : (margin (before.count '\n' + 1) ++
      List.replicate (Text.byteLength (shownBefore before)) '-').length =
        (gutter (before.count '\n' + 1)).length + Text.byteLength (shownBefore before) := by
    rw [List.length_append, List.length_replicate, length_margin]
  refine ⟨_, _, render_lastLines hSource hOffset hIndent, ?_, rfl, fun hBlank => ?_, hLength, ?_⟩
  · simp [margin]
  · obtain ⟨rest, hFirst⟩ := Line.exists_first_cons c after
    rw [hFirst, List.append_assoc, List.prefix_append_right_inj]
    exact Text.prefix_trimRight hBlank _ _
  · rw [hLength, Nat.add_left_cancel_iff, Text.byteLength_eq_length_iff]

/-- The marker under a character of an indented line. -/
theorem render_marks_indented : ∃ (d : Diagnostic) (printed marker : List Char),
    tokenize "let a;\n\t 'b'?" "a" = .error d ∧
    Text.LastLines (d.render "let a;\n\t 'b'?") printed (marker ++ ['^']) ∧
    '^' ∉ marker ∧ printed = "2 | 'b'?".toList ∧ marker.length = 7 ∧
    "2 | 'b'?".toList.idxOf '?' = 7 := by
  have hRun : tokenize "let a;\n\t 'b'?" "a" = .error ⟨.unrecognised "?", ⟨12, "a"⟩⟩ := by
    cbv
  have hSource : "let a;\n\t 'b'?".toList = "let a;\n\t 'b'".toList ++ '?' :: [] := by
    cbv
  have hOffset : Text.byteLength "let a;\n\t 'b'".toList = 12 := by
    cbv
  obtain ⟨printed, marker, hLines, hMark, hPrinted, -, hLength, -⟩ :=
    @render_marks ⟨.unrecognised "?", ⟨12, "a"⟩⟩ _ _ _ _ hSource hOffset.symm ⟨'?', by simp, rfl⟩
  refine ⟨_, printed, marker, hRun, hLines, hMark, hPrinted.trans ?_, hLength.trans ?_, ?_⟩
  · cbv
  · cbv
  · cbv

end Marks

/-- A letter of two bytes puts the marker in the wrong place: seven characters stand before the one
that cannot be read, and eight before the marker. -/
theorem render_misplaces : ∃ d, tokenize "\"é\"?" "test.dnh" = .error d ∧
    Text.LastLines (d.render "\"é\"?") "1 | \"é\"?".toList "  | ----^".toList ∧
    "1 | \"é\"?".toList.idxOf '?' = 7 ∧ "  | ----^".toList.idxOf '^' = 8 := by
  have hRun : tokenize "\"é\"?" "test.dnh" =
      .error ⟨.unrecognised "?", ⟨4, "test.dnh"⟩⟩ := by
    cbv
  refine ⟨_, hRun, ⟨⟨"Error: UnrecognisedToken\n-> test.dnh\n  |".toList, ?_⟩, ?_, ?_⟩, ?_, ?_⟩
  · cbv
  · decide
  · decide
  · cbv
  · cbv

end StageScript

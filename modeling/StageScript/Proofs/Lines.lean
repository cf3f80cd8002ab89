import Mathlib
import StageScript.Proofs.Token.Tiles
import StageScript.Source.Line

/-!
# Lines of a source

The lines of a text are cut behind its newlines.  So the line of a place is what stands behind the
last newline before the place (`Line.last`) together with the first line of what follows
(`Line.first`), and its number is one more than the newlines before the place (`lineAt?_of_eq`).
-/

namespace StageScript

namespace Line

/-- The first line of a text, with the newline that ends it. -/
def first : List Char → List Char
  | [] => []
  | c :: cs => if c = '\n' then [c] else c :: first cs

def last (cs : List Char) : List Char := cs.rtakeWhile (· ≠ '\n')

def Whole (cs : List Char) : Prop := cs = [] ∨ ∃ front, cs = front ++ ['\n']

theorem newline_notMem_last (cs : List Char) : '\n' ∉ last cs := by
  intro h
  simpa using List.mem_rtakeWhile_imp h

/-- A text is whole lines and what stands behind them. -/
theorem exists_whole (cs : List Char) : ∃ lead, Whole lead ∧ cs = lead ++ last cs := by
  induction cs using List.reverseRecOn with
  | nil => exact ⟨[], .inl rfl, rfl⟩
  | append_singleton cs c ih =>
    obtain ⟨lead, hLead, hText⟩ := ih
    rw [last, List.rtakeWhile_concat]
    split
    · refine ⟨lead, hLead, ?_⟩
      rw [← List.append_assoc]
      exact congrArg (· ++ [c]) hText
    · rename_i hc
      obtain rfl : c = '\n' := by simpa using hc
      exact ⟨_, .inr ⟨cs, rfl⟩, (List.append_nil _).symm⟩

/-! ### Splitting -/

theorem flatten_split (cs : List Char) : (split cs).flatten = cs := by
  fun_induction split cs with
  | case1 => rfl
  | case2 cs ih => rw [List.flatten_cons, ih, List.singleton_append]
  | case3 c cs hc hNone ih => rw [← ih, hNone]; rfl
  | case4 c cs hc line lines hSome ih =>
    rw [hSome, List.flatten_cons] at ih
    rw [List.flatten_cons, List.cons_append, ih]

theorem split_ne_nil {cs : List Char} (h : cs ≠ []) : split cs ≠ [] := by
  intro hNil
  have hText := flatten_split cs
  rw [hNil] at hText
  exact h hText.symm

/-- The lines behind a newline are those of the text behind it. -/
theorem split_newline (cs rest : List Char) :
    split (cs ++ '\n' :: rest) = split (cs ++ ['\n']) ++ split rest := by
  induction cs with
  | nil => rfl
  | cons c cs ih =>
    rw [List.cons_append, List.cons_append, split, split, ih]
    split
    · rfl
    · have hSome : split (cs ++ ['\n']) ≠ [] := split_ne_nil (by simp)
      obtain ⟨line, lines, hLines⟩ := List.exists_cons_of_ne_nil hSome
      rw [hLines]
      rfl

theorem length_split_newline (cs : List Char) :
    (split (cs ++ ['\n'])).length = (cs ++ ['\n']).count '\n' := by
  induction cs with
  | nil => rfl
  | cons c cs ih =>
    have hSome : split (cs ++ ['\n']) ≠ [] := split_ne_nil (by simp)
    obtain ⟨line, lines, hLines⟩ := List.exists_cons_of_ne_nil hSome
    rw [List.cons_append, split, List.count_cons, ← ih]
    split
    · rename_i hc
      rw [List.length_cons, hc]
      rfl
    · rename_i hc
      rw [hLines, if_neg (by simpa using hc)]
      rfl

/-- Behind whole lines, splitting starts anew. -/
theorem Whole.split_append {lead : List Char} (h : Whole lead) (rest : List Char) :
    split (lead ++ rest) = split lead ++ split rest := by
  rcases h with rfl | ⟨front, rfl⟩
  · rfl
  · rw [List.append_assoc, List.singleton_append, split_newline]

theorem Whole.length_split {lead : List Char} (h : Whole lead) :
    (split lead).length = lead.count '\n' := by
  rcases h with rfl | ⟨front, rfl⟩
  · rfl
  · exact length_split_newline front

theorem exists_split_eq {cs : List Char} (h : cs ≠ []) : ∃ lines, split cs = first cs :: lines := by
  induction cs with
  | nil => exact absurd rfl h
  | cons c cs ih =>
    rw [split, first]
    split
    · exact ⟨_, rfl⟩
    · cases cs with
      | nil => exact ⟨[], rfl⟩
      | cons d cs =>
        obtain ⟨lines, hLines⟩ := ih (List.cons_ne_nil d cs)
        rw [hLines]
        exact ⟨lines, rfl⟩

/-- Only the last line of a text may lack its newline. -/
theorem exists_first_eq (cs : List Char) :
    ∃ body rest, '\n' ∉ body ∧ cs = first cs ++ rest ∧
      (first cs = body ∧ rest = [] ∨ first cs = body ++ ['\n']) := by
  induction cs with
  | nil => exact ⟨[], [], List.not_mem_nil, rfl, .inl ⟨rfl, rfl⟩⟩
  | cons c cs ih =>
    rw [first]
    split
    · rename_i hc
      exact ⟨[], cs, List.not_mem_nil, rfl, .inr (by rw [hc]; rfl)⟩
    · rename_i hc
      obtain ⟨body, rest, hBody, hText, hFirst⟩ := ih
      refine ⟨c :: body, rest, ?_, ?_, ?_⟩
      · rw [List.mem_cons, not_or]
        exact ⟨Ne.symm hc, hBody⟩
      · rw [List.cons_append, ← hText]
      · rcases hFirst with ⟨hFirst, hRest⟩ | hFirst
        · exact .inl ⟨by rw [hFirst], hRest⟩
        · exact .inr (by rw [hFirst, List.cons_append])

theorem exists_first_cons (c : Char) (cs : List Char) : ∃ rest, first (c :: cs) = c :: rest := by
  rw [first]
  split
  · exact ⟨[], rfl⟩
  · exact ⟨first cs, rfl⟩

theorem first_append {cs : List Char} (h : '\n' ∉ cs) (rest : List Char) :
    first (cs ++ rest) = cs ++ first rest := by
  induction cs with
  | nil => rfl
  | cons c cs ih =>
    rw [List.mem_cons, not_or] at h
    rw [List.cons_append, first, if_neg (Ne.symm h.1), ih h.2, List.cons_append]

/-- The bytes of the character `c` are on the line that goes on with it. -/
theorem lt_byteLength_append_first {c : Char} {k : Nat} (cs after : List Char)
    (hk : k < c.utf8Size) :
    Text.byteLength cs + k < Text.byteLength (cs ++ first (c :: after)) := by
  obtain ⟨rest, hFirst⟩ := exists_first_cons c after
  rw [Text.byteLength_append, hFirst, Text.byteLength]
  omega

/-! ### Locating -/

theorem locate_eq_none_iff {number offset : Nat} {lines : List (List Char)} :
    locate number offset lines = none ↔ Text.byteLength lines.flatten ≤ offset := by
  induction lines generalizing number offset with
  | nil => simp [locate, Text.byteLength]
  | cons line lines ih =>
    rw [locate, List.flatten_cons, Text.byteLength_append]
    split
    · constructor
      · intro h
        cases h
      · intro h
        omega
    · rw [ih]
      omega

/-- The lines before a place are passed over. -/
theorem locate_append (number offset : Nat) (front lines : List (List Char)) :
    locate number (Text.byteLength front.flatten + offset) (front ++ lines) =
      locate (number + front.length) offset lines := by
  induction front generalizing number with
  | nil => rw [List.flatten_nil, Text.byteLength, Nat.zero_add, List.nil_append]; rfl
  | cons line front ih =>
    have hRest : Text.byteLength line + Text.byteLength front.flatten + offset -
        Text.byteLength line = Text.byteLength front.flatten + offset := by
      omega
    rw [List.flatten_cons, Text.byteLength_append, List.cons_append, locate, if_neg (by omega),
      hRest, ih, List.length_cons, Nat.add_right_comm, Nat.add_assoc]

end Line

/-- The places without line are those from the end of the source on. -/
theorem lineAt?_eq_none_iff {source : String} {offset : Nat} :
    lineAt? source offset = none ↔ source.utf8ByteSize ≤ offset := by
  rw [lineAt?, Line.locate_eq_none_iff, Line.flatten_split, Text.byteLength_toList]

/-- The line of a byte of the character `c`. -/
theorem lineAt?_of_eq {source : String} {before after : List Char} {c : Char} {k : Nat}
    (hSource : source.toList = before ++ c :: after) (hk : k < c.utf8Size) :
    lineAt? source (Text.byteLength before + k) =
      some ⟨before.count '\n' + 1, String.ofList (Line.last before ++ Line.first (c :: after)),
        Text.byteLength (Line.last before) + k⟩ := by
  obtain ⟨lead, hLead, hBefore⟩ := Line.exists_whole before
  have hLast := Line.newline_notMem_last before
  have hNumber : before.count '\n' = (Line.split lead).length := by
    rw [hLead.length_split, hBefore, List.count_append, List.count_eq_zero_of_not_mem hLast,
      Nat.add_zero]
  have hOffset : Text.byteLength before + k = Text.byteLength (Line.split lead).flatten +
      (Text.byteLength (Line.last before) + k) := by
    rw [Line.flatten_split, ← Nat.add_assoc, ← Text.byteLength_append, ← hBefore]
  have hSome : Line.last before ++ c :: after ≠ [] := by simp
  obtain ⟨lines, hLines⟩ := Line.exists_split_eq hSome
  have hSplit : Line.split source.toList = Line.split lead ++
      (Line.last before ++ Line.first (c :: after)) :: lines := by
    rw [hSource, hBefore, List.append_assoc, hLead.split_append, ← hBefore, hLines,
      Line.first_append hLast]
  rw [lineAt?, hOffset, hSplit, Line.locate_append, Line.locate,
    if_pos (Line.lt_byteLength_append_first _ _ hk), hNumber, Nat.add_comm 1]

end StageScript

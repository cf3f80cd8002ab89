import StageScript.Diagnostic.Render
import StageScript.Proofs.Marker
import StageScript.Proofs.Parse.Faults
import StageScript.Proofs.Token.Cut
import StageScript.Proofs.Verdict

/-!
# Diagnostics point into their source

Every diagnostic of a source is at a boundary between two of its characters.  A fault of the tokens
is at a character, a fault of the grammar at the start of a token, which may be the end of the
source, or at its beginning.  The faults of the checks are at names, returns and breaks; since no
two nodes that the checks speak of start at the same token, the diagnostics stand at places that
grow from one to the next.  Where there is a character, there is a line to show.
-/

namespace StageScript

/-! ### Shown lines -/

namespace Diagnostic

variable {d : Diagnostic} {source : String}

theorem excerpt_ne_empty (line : Line) : excerpt line ≠ "" := by
  intro h
  have hLength := congrArg String.length h
  simp [excerpt, String.length_append] at hLength

/-- A diagnostic is shown with its line, if there is a character where it points. -/
theorem render_of_lt (h : d.position.offset < source.utf8ByteSize) :
    ∃ line, lineAt? source d.position.offset = some line ∧
      d.render source = d.title ++ s!"-> {d.position.file}\n" ++ excerpt line := by
  cases hLine : lineAt? source d.position.offset with
  | none => exact absurd (lineAt?_eq_none_iff.mp hLine) (Nat.not_le_of_lt h)
  | some line =>
    refine ⟨line, rfl, ?_⟩
    rw [render, hLine]
    rfl

/-- A diagnostic that is shown without line points to the end of the source, or behind it. -/
theorem le_of_render_eq (h : d.render source = d.title ++ s!"-> {d.position.file}\n") :
    source.utf8ByteSize ≤ d.position.offset := by
  refine Nat.le_of_not_lt fun hLess => ?_
  obtain ⟨line, -, hRender⟩ := render_of_lt hLess
  have hLength := congrArg String.length (hRender.symm.trans h)
  have hExcerpt : (excerpt line).length ≠ 0 :=
    fun hZero => excerpt_ne_empty line (String.length_eq_zero_iff.mp hZero)
  rw [String.length_append] at hLength
  omega

end Diagnostic

/-! ### Places in a source -/

namespace Position

variable {source file : String} {position : Position} {before after : List Char} {c : Char}

/-- The position is a boundary between characters of the source, or one of its ends. -/
structure InSource (source file : String) (position : Position) : Prop where
  file_eq : position.file = file
  valid : String.Pos.Raw.IsValid source ⟨position.offset⟩
  le : position.offset ≤ source.utf8ByteSize

theorem InSource.of_valid {offset : Nat} (h : String.Pos.Raw.IsValid source ⟨offset⟩) :
    InSource source file ⟨offset, file⟩ :=
  ⟨rfl, h, h.le_rawEndPos⟩

/-- The position is that of the character `c` in the source. -/
structure At (source file : String) (position : Position) (before : List Char) (c : Char)
    (after : List Char) : Prop where
  position_eq : position = ⟨Text.byteLength before, file⟩
  source_eq : source.toList = before ++ c :: after

namespace At

theorem lt (h : At source file position before c after) :
    position.offset < source.utf8ByteSize := by
  have hChar := Text.byteLength_pos (List.cons_ne_nil c after)
  rw [h.position_eq, ← Text.byteLength_toList, h.source_eq, Text.byteLength_append]
  exact Nat.lt_add_of_pos_right hChar

theorem inSource (h : At source file position before c after) : position.InSource source file := by
  rw [h.position_eq]
  exact .of_valid (Text.isValid_of_eq h.source_eq rfl)

/-- In a source that is short enough, the place behind some characters is where they end. -/
theorem of_behind (hSize : source.utf8ByteSize < 2 ^ 32)
    (hSource : source.toList = before ++ c :: after) :
    At source file (.behind file (Text.byteLength before)) before c after := by
  have hAt : At source file ⟨Text.byteLength before, file⟩ before c after := ⟨rfl, hSource⟩
  rwa [behind, narrow_of_lt (hAt.lt.trans hSize)]

theorem unique (h : At source file position before c after) {lead rest : List Char} {d : Char}
    (g : At source file position lead d rest) : before = lead ∧ c :: after = d :: rest := by
  have hBytes : Text.byteLength before = Text.byteLength lead :=
    congrArg Position.offset (h.position_eq.symm.trans g.position_eq)
  have hRest := Cursor.dropBytes_append before (c :: after)
  rw [← h.source_eq, g.source_eq, hBytes, Cursor.dropBytes_append] at hRest
  have hSource := h.source_eq.symm.trans g.source_eq
  rw [← hRest] at hSource
  exact ⟨List.append_cancel_right hSource, hRest.symm⟩

end At

end Position

theorem Diagnostic.isIndent_of_isBlank {c : Char} (h : Text.isBlank c = false) :
    isIndent c = false := by
  by_contra hIndent
  rw [Bool.not_eq_false, isIndent, Bool.or_eq_true, decide_eq_true_iff, decide_eq_true_iff]
    at hIndent
  rcases hIndent with rfl | rfl <;> cases h

section Tokens

variable {source file : String} {tokens : List Token} {d : Diagnostic}

/-- A source that cannot be read has a character that starts no token. -/
theorem tokenize_error_at (hSize : source.utf8ByteSize < 2 ^ 32)
    (h : tokenize source file = .error d) :
    ∃ before c after, d.position.At source file before c after := by
  rw [tokenize_eq_outcome, Scan.outcome] at h
  split at h
  · rename_i c hUnread
    obtain ⟨before, after, hSource, hStop, -⟩ := scan_stops hUnread
    cases h
    refine ⟨before, c, after, ?_⟩
    rw [hStop, Cursor.position, Cursor.advance, Cursor.start, Nat.zero_add]
    exact .of_behind hSize hSource
  · cases h

/-- Every token but the last starts at a character that is no blank. -/
theorem tokenize_at (hSize : source.utf8ByteSize < 2 ^ 32) (h : tokenize source file = .ok tokens)
    {token : Token} (hToken : token ∈ tokens) (hk : token.kind ≠ .eof) :
    ∃ before c after, token.span.start.At source file before c after ∧
      Text.isBlank c = false := by
  obtain ⟨read, texts, rfl, hTiled⟩ := tokenize_tiled h
  rcases List.mem_append.mp hToken with hRead | hLast
  · obtain ⟨front, text, rest, hSource, hStart, hText⟩ :=
      hTiled.exists_text (.start source file) hRead
    obtain ⟨c, cs, rfl, hBlank⟩ := hText.exists_cons
    rw [hStart]
    exact ⟨front, c, cs ++ rest, .of_behind hSize hSource, hBlank⟩
  · cases List.mem_singleton.mp hLast
    exact absurd rfl hk

/-- Every token starts in its source. -/
theorem tokenize_inSource (hSize : source.utf8ByteSize < 2 ^ 32)
    (h : tokenize source file = .ok tokens) {token : Token} (hToken : token ∈ tokens) :
    token.span.start.InSource source file := by
  obtain ⟨read, hTokens, hRead, -⟩ := tokenize_stands hSize h
  rw [hTokens] at hToken
  rcases List.mem_append.mp hToken with hMem | hLast
  · obtain ⟨hFile, hStands⟩ := hRead token hMem
    exact ⟨hFile, hStands.start_valid, hStands.start_valid.le_rawEndPos⟩
  · cases List.mem_singleton.mp hLast
    exact .of_valid String.Pos.Raw.isValid_rawEndPos

theorem Fault.inSource (hSize : source.utf8ByteSize < 2 ^ 32)
    (hTokens : tokenize source file = .ok tokens) (h : Fault tokens.toArray file d)
    (hFatal : d.isFatal = false) : d.position.InSource source file := by
  cases h with
  | fatal h =>
    rw [hFatal] at h
    cases h
  | unwanted hToken _ => exact tokenize_inSource hSize hTokens (List.mem_toArray.mp hToken)
  | tooDeep hToken => exact tokenize_inSource hSize hTokens (List.mem_toArray.mp hToken)
  | declared hSite =>
    rcases hSite with ⟨token, hToken, rfl⟩ | rfl
    · exact tokenize_inSource hSize hTokens (List.mem_toArray.mp hToken)
    · exact .of_valid (String.Pos.Raw.isValid_zero ..)

end Tokens

/-! ### Faults of the checks -/

section Checks

variable {source file : String} {host : Host} {tokens : List Token} {tree : Tree}

/-- A node that breaks a rule starts with a name, a return or a break. -/
theorem Violation.opener (hTokens : tokenize source file = .ok tokens)
    (hParse : parse tokens file host = .ok tree) {id : NodeId} {d : Diagnostic}
    (h : Violation tree id d) :
    ∃ token ∈ tokens, token.kind.Opener ∧ d.position = token.span.start := by
  obtain ⟨q, rfl, hSteady⟩ := parse_steady hTokens hParse
  obtain ⟨place, node, -, hNode, hBreaks, hPosition⟩ := h
  obtain ⟨number, hOpened⟩ := hSteady.opened
  obtain ⟨token, -, -, hToken, hOpener, hStart⟩ :=
    hOpened.token ⟨Nat.zero_le id, hNode⟩ hBreaks.isRuled
  exact ⟨token, List.mem_toArray.mp (Array.mem_of_getElem? hToken), hOpener,
    hPosition.trans hStart⟩

/-- Nodes that break rules at the same place are the same. -/
theorem Violation.eq_of_offset_eq {name : String} (hSize : source.utf8ByteSize < 2 ^ 32)
    (hTokens : tokenize source file = .ok tokens) (hParse : parse tokens name host = .ok tree)
    {i j : NodeId} {d e : Diagnostic} (hd : Violation tree i d) (he : Violation tree j e)
    (hEq : d.position.offset = e.position.offset) : i = j := by
  obtain ⟨q, rfl, hSteady⟩ := parse_steady hTokens hParse
  obtain ⟨_, a, -, ha, hBreaks, hStart⟩ := hd
  obtain ⟨_, b, -, hb, hBreaks', hStart'⟩ := he
  obtain ⟨number, hOpened⟩ := hSteady.opened
  obtain ⟨_, -, -, hFirst, -, hAt⟩ := hOpened.token ⟨Nat.zero_le i, ha⟩ hBreaks.isRuled
  obtain ⟨_, -, -, hSecond, -, hAt'⟩ := hOpened.token ⟨Nat.zero_le j, hb⟩ hBreaks'.isRuled
  rw [hStart, hStart', hAt, hAt'] at hEq
  exact hOpened.injective ⟨Nat.zero_le i, ha⟩ ⟨Nat.zero_le j, hb⟩ hBreaks.isRuled hBreaks'.isRuled
    ((ordered_of_tokenize hSize hTokens).index_eq hFirst hSecond hEq)

/-- The faults of the checks stand at places that grow from one to the next. -/
theorem check_increasing {name : String} (hSize : source.utf8ByteSize < 2 ^ 32)
    (hTokens : tokenize source file = .ok tokens) (hParse : parse tokens name host = .ok tree) :
    (check tree).Pairwise fun d e => d.position.offset < e.position.offset := by
  obtain ⟨ids, hNodup, -, hAll⟩ := (parse_wellFormed hParse).check_violations
  have hSorted := Findings.sorted_pairwise (Check.root tree)
  rw [List.pairwise_iff_getElem]
  intro i j hi hj hij
  have hLe := List.pairwise_iff_getElem.mp hSorted i j hi hj hij
  refine Nat.lt_of_le_of_ne hLe fun hEq => ?_
  have hi' : i < ids.length := hAll.length_eq ▸ hi
  have hj' : j < ids.length := hAll.length_eq ▸ hj
  have hSame :=
    Violation.eq_of_offset_eq hSize hTokens hParse (hAll.get hi' hi) (hAll.get hj' hj) hEq
  exact hij.ne (hNodup.getElem_inj_iff.mp hSame)

theorem check_opener (hTokens : tokenize source file = .ok tokens)
    (hParse : parse tokens file host = .ok tree) {d : Diagnostic} (hd : d ∈ check tree) :
    ∃ token ∈ tokens, token.kind.Opener ∧ d.position = token.span.start := by
  obtain ⟨ids, -, -, hAll⟩ := (parse_wellFormed hParse).check_violations
  obtain ⟨n, hn, rfl⟩ := List.mem_iff_getElem.mp hd
  exact (hAll.get (hAll.length_eq ▸ hn) hn).opener hTokens hParse

theorem TokenKind.Opener.ne_eof {kind : TokenKind} (h : kind.Opener) : kind ≠ .eof := by
  rcases h with rfl | rfl | rfl <;> decide

/-- A fault of the checks is at a character that is no blank. -/
theorem check_at (hSize : source.utf8ByteSize < 2 ^ 32)
    (hTokens : tokenize source file = .ok tokens) (hParse : parse tokens file host = .ok tree)
    {d : Diagnostic} (hd : d ∈ check tree) :
    ∃ before c after, d.position.At source file before c after ∧ Text.isBlank c = false := by
  obtain ⟨token, hToken, hOpener, hStart⟩ := check_opener hTokens hParse hd
  rw [hStart]
  exact tokenize_at hSize hTokens hToken hOpener.ne_eof

end Checks

/-! ### All diagnostics -/

section Ends

variable {source file : String} {host : Host} {options : Options} {ds : List Diagnostic}
  {d : Diagnostic}

theorem Ends.inSource (hSize : source.utf8ByteSize < 2 ^ 32)
    (h : Ends source file host options (.error ds)) (hd : d ∈ ds) :
    d.position.InSource source file := by
  cases h with
  | unread hTokens =>
    cases List.mem_singleton.mp hd
    obtain ⟨before, c, after, hAt⟩ := tokenize_error_at hSize hTokens
    exact hAt.inSource
  | unparsed hTokens hParse =>
    cases List.mem_singleton.mp hd
    exact (parse_fault hTokens hParse).inSource hSize hTokens (parse_not_fatal hParse)
  | faulty hTokens hParse _ =>
    obtain ⟨before, c, after, hAt, -⟩ := check_at hSize hTokens hParse hd
    exact hAt.inSource

/-- Only a fault of the grammar can be at the end of the source. -/
theorem Ends.unparsed_of_le (hSize : source.utf8ByteSize < 2 ^ 32)
    (h : Ends source file host options (.error ds)) (hd : d ∈ ds)
    (hEnd : source.utf8ByteSize ≤ d.position.offset) :
    ds = [d] ∧ ∃ tokens, tokenize source file = .ok tokens ∧ parse tokens file host = .error d := by
  cases h with
  | unread hTokens =>
    cases List.mem_singleton.mp hd
    obtain ⟨before, c, after, hAt⟩ := tokenize_error_at hSize hTokens
    exact absurd hEnd (Nat.not_le_of_lt hAt.lt)
  | unparsed hTokens hParse =>
    cases List.mem_singleton.mp hd
    exact ⟨rfl, _, hTokens, hParse⟩
  | faulty hTokens hParse _ =>
    obtain ⟨before, c, after, hAt, -⟩ := check_at hSize hTokens hParse hd
    exact absurd hEnd (Nat.not_le_of_lt hAt.lt)

theorem Ends.eq_singleton (h : Ends source file host options (.error ds))
    (hTokens : tokenize source file = .error d) : ds = [d] := by
  cases h with
  | unread h =>
    cases h.symm.trans hTokens
    rfl
  | unparsed h | faulty h => cases h.symm.trans hTokens

theorem Ends.eq_check (h : Ends source file host options (.error ds)) {tokens : List Token}
    {tree : Tree} (hTokens : tokenize source file = .ok tokens)
    (hParse : parse tokens file host = .ok tree) : ds = check tree := by
  cases h with
  | unread h => cases h.symm.trans hTokens
  | unparsed h g =>
    cases h.symm.trans hTokens
    cases g.symm.trans hParse
  | faulty h g _ =>
    cases h.symm.trans hTokens
    cases g.symm.trans hParse
    rfl

open Diagnostic in
/-- Every diagnostic of a source of less than 2^32 bytes points into it: it has the name of the
source, and its offset is a boundary of characters and not behind the end.  A fault of the tokens is
before the end.  The faults of the checks stand at offsets that grow from one to the next, each at
the start of a name, a return or a break.  Each is shown with its line: what is rendered ends with
the number of the line where it points and the line without its indentation, and below them a
marker, behind as many dashes as the shown line has bytes before the place.  A diagnostic that is
shown without line is the only one, comes from the parser, and points to the end of the source. -/
theorem analyzeSource_points (hSize : source.utf8ByteSize < 2 ^ 32)
    (h : analyzeSource source file host options = .error ds) :
    (∀ d ∈ ds, d.position.file = file ∧ String.Pos.Raw.IsValid source ⟨d.position.offset⟩ ∧
      d.position.offset ≤ source.utf8ByteSize) ∧
    (∀ d, tokenize source file = .error d →
      ds = [d] ∧ d.position.offset < source.utf8ByteSize) ∧
    (∀ tokens tree, tokenize source file = .ok tokens → parse tokens file host = .ok tree →
      ds = check tree ∧ (ds.Pairwise fun d e => d.position.offset < e.position.offset) ∧
      ∀ d ∈ ds, (∃ token ∈ tokens, (token.kind = .identifier ∨ token.kind = .keyword .returnWord ∨
          token.kind = .keyword .breakWord) ∧ d.position = token.span.start) ∧
        (∃ line, lineAt? source d.position.offset = some line ∧
          d.render source = d.title ++ s!"-> {d.position.file}\n" ++ excerpt line) ∧
        ∃ before c after, d.position.At source file before c after ∧
          Text.LastLines (d.render source)
            (gutter (before.count '\n' + 1) ++
              Text.trimRight (shownBefore before ++ Line.first (c :: after)))
            (margin (before.count '\n' + 1) ++
              List.replicate (Text.byteLength (shownBefore before)) '-' ++ ['^'])) ∧
    ∀ d ∈ ds, d.render source = d.title ++ s!"-> {d.position.file}\n" →
      ds = [d] ∧ d.position.offset = source.utf8ByteSize ∧
        ∃ tokens, tokenize source file = .ok tokens ∧ parse tokens file host = .error d := by
  have hEnds : Ends source file host options (.error ds) :=
    h ▸ ends_analyzeSource source file host options
  refine ⟨fun d hd => ?_, fun d hTokens => ?_, fun tokens tree hTokens hParse => ?_,
    fun d hd hRender => ?_⟩
  · have hIn := hEnds.inSource hSize hd
    exact ⟨hIn.file_eq, hIn.valid, hIn.le⟩
  · obtain ⟨before, c, after, hAt⟩ := tokenize_error_at hSize hTokens
    exact ⟨hEnds.eq_singleton hTokens, hAt.lt⟩
  · obtain rfl := hEnds.eq_check hTokens hParse
    refine ⟨rfl, check_increasing hSize hTokens hParse, fun d hd => ?_⟩
    obtain ⟨before, c, after, hAt, hBlank⟩ := check_at hSize hTokens hParse hd
    refine ⟨check_opener hTokens hParse hd, render_of_lt hAt.lt, before, c, after, hAt, ?_⟩
    refine render_lastLines hAt.source_eq (congrArg Position.offset hAt.position_eq) ?_
    exact ⟨c, List.mem_append_right _ (List.mem_singleton_self c), isIndent_of_isBlank hBlank⟩
  · have hEnd := le_of_render_eq hRender
    obtain ⟨hOnly, hFront⟩ := hEnds.unparsed_of_le hSize hd hEnd
    exact ⟨hOnly, Nat.le_antisymm (hEnds.inSource hSize hd).le hEnd, hFront⟩

/-- Faults behind a letter of two bytes, in a routine and around it, and what is shown of the
second and the third. -/
theorem analyzeSource_points_sub : ∃ ds,
    analyzeSource "/*é*/ y(x);\n\tsub f \x7b break; \x7d" "a" Host.empty .standard = .error ds ∧
    ds.map (·.position.offset) = [7, 9, 22] ∧
    (∀ d ∈ ds, String.Pos.Raw.IsValid "/*é*/ y(x);\n\tsub f \x7b break; \x7d"
      ⟨d.position.offset⟩) ∧
    (ds.Pairwise fun d e => d.position.offset < e.position.offset) ∧
    (∃ d ∈ ds, Text.LastLines (d.render "/*é*/ y(x);\n\tsub f \x7b break; \x7d")
      "1 | /*é*/ y(x);".toList "  | ---------^".toList) ∧
    ∃ d ∈ ds, Text.LastLines (d.render "/*é*/ y(x);\n\tsub f \x7b break; \x7d")
      "2 | sub f \x7b break; \x7d".toList "  | --------^".toList := by
  have hRun : (do
      let tokens ← tokenize "/*é*/ y(x);\n\tsub f \x7b break; \x7d" "a"
      let tree ← parse tokens "a" Host.empty
      pure (check tree)) = Except.ok [⟨.undefinedName "y", ⟨7, "a"⟩⟩,
        ⟨.undefinedName "x", ⟨9, "a"⟩⟩, ⟨.breakOutsideLoop, ⟨22, "a"⟩⟩] := by
    cbv
  obtain ⟨tokens, hTokens, hRun⟩ := exists_of_bind_eq_ok hRun
  obtain ⟨tree, hTree, -⟩ := exists_of_bind_eq_ok hRun
  have hSource : analyzeSource "/*é*/ y(x);\n\tsub f \x7b break; \x7d" "a" Host.empty .standard =
      .error [⟨.undefinedName "y", ⟨7, "a"⟩⟩, ⟨.undefinedName "x", ⟨9, "a"⟩⟩,
        ⟨.breakOutsideLoop, ⟨22, "a"⟩⟩] := by
    cbv
  obtain ⟨hIn, -, hFaults, -⟩ := analyzeSource_points (by decide) hSource
  obtain ⟨-, hGrow, hShown⟩ := hFaults tokens tree hTokens hTree
  refine ⟨_, hSource, rfl, fun d hd => (hIn d hd).2.1, hGrow, ?_, ?_⟩
  · refine ⟨⟨.undefinedName "x", ⟨9, "a"⟩⟩, by simp, ?_⟩
    obtain ⟨-, -, before, c, after, hAt, hLines⟩ :=
      hShown ⟨.undefinedName "x", ⟨9, "a"⟩⟩ (by simp)
    have hPlace : Position.At "/*é*/ y(x);\n\tsub f \x7b break; \x7d" "a" ⟨9, "a"⟩
        "/*é*/ y(".toList 'x' ");\n\tsub f \x7b break; \x7d".toList :=
      ⟨by cbv, by cbv⟩
    obtain ⟨rfl, hRest⟩ := hAt.unique hPlace
    rw [hRest] at hLines
    exact hLines
  · refine ⟨⟨.breakOutsideLoop, ⟨22, "a"⟩⟩, by simp, ?_⟩
    obtain ⟨-, -, before, c, after, hAt, hLines⟩ :=
      hShown ⟨.breakOutsideLoop, ⟨22, "a"⟩⟩ (by simp)
    have hPlace : Position.At "/*é*/ y(x);\n\tsub f \x7b break; \x7d" "a" ⟨22, "a"⟩
        "/*é*/ y(x);\n\tsub f \x7b ".toList 'b' "reak; \x7d".toList :=
      ⟨by cbv, by cbv⟩
    obtain ⟨rfl, hRest⟩ := hAt.unique hPlace
    rw [hRest] at hLines
    exact hLines

end Ends

end StageScript

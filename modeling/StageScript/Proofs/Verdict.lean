import StageScript.Proofs.Analysis.Reach
import StageScript.Proofs.Check.Violations
import StageScript.Script

/-!
# How a source ends

The stages of a source can end in four ways (`Ends`): with a fault of the tokens, with a
fault of the grammar, with all the faults of the checks, or with the analyzed script.  A
parsed script is never malformed, so no analysis of it fails and no fault that is given is a
fault of the tree.
-/

namespace StageScript

/-- The ways in which the stages of a source can end. -/
inductive Ends (source file : String) (host : Host) (options : Options) :
    Except (List Diagnostic) AnalyzedScript → Prop
  | unread {d : Diagnostic} : tokenize source file = .error d → Ends source file host options (.error [d])
  | unparsed {tokens : List Token} {d : Diagnostic} : tokenize source file = .ok tokens →
      parse tokens file host = .error d → Ends source file host options (.error [d])
  | faulty {tokens : List Token} {tree : Tree} : tokenize source file = .ok tokens →
      parse tokens file host = .ok tree → check tree ≠ [] →
      Ends source file host options (.error (check tree))
  | fine {tokens : List Token} {tree : Tree} {a : Annotations} :
      tokenize source file = .ok tokens → parse tokens file host = .ok tree → check tree = [] →
      analyze tree options = .ok a → Ends source file host options (.ok ⟨tree, a⟩)

/-- A source that cannot be read is at fault, and not its tree. -/
theorem tokenize_not_fatal {source file : String} {d : Diagnostic}
    (h : tokenize source file = .error d) : d.isFatal = false := by
  rw [tokenize] at h
  split at h
  · cases h
    rfl
  · cases h

/-- Without a fatal one, all diagnostics are shown. -/
theorem settle_eq_self {ds : List Diagnostic} (h : ∀ d ∈ ds, d.isFatal = false) :
    settle ds = ds := by
  have hNone : ds.find? Diagnostic.isFatal = none := by
    rw [List.find?_eq_none]
    intro d hd
    simp [h d hd]
  rw [settle, hNone]

/-- A parsed script is analyzed, whatever the options. -/
theorem exists_analyze {tokens : List Token} {file : String} {host : Host} {tree : Tree}
    (h : parse tokens file host = .ok tree) (options : Options) :
    ∃ a, analyze tree options = .ok a := by
  obtain ⟨a, -, hRun, -⟩ := analyze_walked (parse_wellFormed h) options
  exact ⟨a, hRun⟩

theorem ends_analyzeSource (source file : String) (host : Host) (options : Options) :
    Ends source file host options (analyzeSource source file host options) := by
  simp only [analyzeSource, bind, Except.bind]
  cases hTokens : tokenize source file with
  | error d => exact .unread hTokens
  | ok tokens =>
    cases hTree : parse tokens file host with
    | error d =>
      simp only [Except.mapError, hTree]
      exact .unparsed hTokens hTree
    | ok tree =>
      obtain ⟨a, hRun⟩ := exists_analyze hTree options
      have hSettle := settle_eq_self (parse_wellFormed hTree).check_not_fatal
      simp only [Except.mapError, hTree, hRun, hSettle]
      cases hCheck : check tree with
      | nil => exact .fine hTokens hTree hCheck hRun
      | cons d ds =>
        have hFaulty : Ends source file host options (.error (check tree)) :=
          .faulty hTokens hTree (by simp [hCheck])
        rw [hCheck] at hFaulty
        exact hFaulty

/-- No diagnostic of a source is about its tree. -/
theorem Ends.not_fatal {source file : String} {host : Host} {options : Options}
    {result : Except (List Diagnostic) AnalyzedScript}
    (h : Ends source file host options result) :
    ∀ ds, result = .error ds → ds ≠ [] ∧ ∀ d ∈ ds, d.isFatal = false := by
  cases h with
  | unread hTokens =>
    rintro ds ⟨⟩
    exact ⟨List.cons_ne_nil _ _, fun e he => List.mem_singleton.mp he ▸ tokenize_not_fatal hTokens⟩
  | unparsed _ hTree =>
    rintro ds ⟨⟩
    exact ⟨List.cons_ne_nil _ _, fun e he => List.mem_singleton.mp he ▸ parse_not_fatal hTree⟩
  | faulty _ hTree hne =>
    rintro ds ⟨⟩
    exact ⟨hne, (parse_wellFormed hTree).check_not_fatal⟩
  | fine _ _ _ _ => exact nofun

/-- A parsed script is never malformed: every analysis of it ends well, and no fault that the
checks find is one of the tree.  So a source ends with the one fault of its tokens or of its
grammar, with all the faults of the checks, or, just when there are none, with its tree and
annotations. -/
theorem parsed_not_malformed :
    (∀ (tokens : List Token) (file : String) (host : Host) (tree : Tree),
      parse tokens file host = .ok tree → ∀ options : Options,
        (∃ a, analyze tree options = .ok a) ∧
        ∀ d ∈ check tree, ∀ reason, d.cause ≠ .malformedTree reason) ∧
    ∀ (source file : String) (host : Host) (options : Options),
      Ends source file host options (analyzeSource source file host options) ∧
      ∀ ds, analyzeSource source file host options = .error ds →
        ds ≠ [] ∧ ∀ d ∈ ds, d.isFatal = false := by
  refine ⟨?_, ?_⟩
  · intro tokens file host tree h options
    refine ⟨exists_analyze h options, fun d hd reason hCause => ?_⟩
    have hFatal := (parse_wellFormed h).check_not_fatal d hd
    rw [Diagnostic.isFatal, hCause] at hFatal
    cases hFatal
  · intro source file host options
    have hEnds := ends_analyzeSource source file host options
    exact ⟨hEnds, hEnds.not_fatal⟩

/-- A source with a fault in a routine that nothing calls. -/
theorem parsed_not_malformed_fault : ∃ tokens tree,
    tokenize "sub f \x7b x = 1; \x7d" "a" = .ok tokens ∧
    parse tokens "a" Host.empty = .ok tree ∧
    (∃ a, analyze tree .standard = .ok a) ∧
    analyzeSource "sub f \x7b x = 1; \x7d" "a" Host.empty .standard =
      .error [⟨.undefinedName "x", ⟨8, "a"⟩⟩] ∧
    (Diagnostic.mk (.undefinedName "x") ⟨8, "a"⟩).isFatal = false := by
  have hRun : (do
      let tokens ← tokenize "sub f \x7b x = 1; \x7d" "a"
      let tree ← parse tokens "a" Host.empty
      pure tree.size) = Except.ok 6 := by
    cbv
  have hEnd : analyzeSource "sub f \x7b x = 1; \x7d" "a" Host.empty .standard =
      .error [⟨.undefinedName "x", ⟨8, "a"⟩⟩] := by
    cbv
  obtain ⟨tokens, hTokens, hRun⟩ := exists_of_bind_eq_ok hRun
  obtain ⟨tree, hTree, -⟩ := exists_of_bind_eq_ok hRun
  refine ⟨tokens, tree, hTokens, hTree, (parsed_not_malformed.1 _ _ _ _ hTree .standard).1, hEnd, ?_⟩
  exact ((parsed_not_malformed.2 _ _ _ _).2 _ hEnd).2 _ List.mem_cons_self

end StageScript

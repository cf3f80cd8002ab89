import StageScript.Proofs.Analysis.Renamed
import StageScript.Proofs.Check.Renamed
import StageScript.Proofs.Moved.Parse
import StageScript.Proofs.Pointing

/-!
# Callables stand anywhere in their block

Where a callable stands among the statements of its block does not matter.  The tree of a script in
which one is moved differs in its numbers only (`Swap.exists_parse`), and neither the analysis nor
the checks depend on numbers (`Tree.Renamed.exists_analyze`, `Tree.Renamed.check_eq`).
-/

namespace StageScript

/-- Only the last token of a source is its end. -/
theorem tokenize_ended {source file : String} {tokens : List Token}
    (h : tokenize source file = .ok tokens) :
    ∃ read last, tokens = read ++ [last] ∧ last.kind = .eof ∧ ∀ t ∈ read, t.kind ≠ .eof := by
  obtain ⟨read, texts, hTokens, hTiled⟩ := tokenize_tiled h
  refine ⟨read, _, hTokens, rfl, fun t ht => ?_⟩
  obtain ⟨_, _, _, -, -, hLexeme⟩ := hTiled.exists_text (.start source file) ht
  exact hLexeme.kind_ne_eof

/-- A script in which a callable is moved to another place of its block is a script too, and its
tree is the same under other numbers.  The analyses of both trees know the same of a node and its
counterpart, and the checks find the same faults for the same nodes.  They come in the same order
too, if the source has less than 2^32 bytes, since no two of them are at the same offset then. -/
theorem parse_moved {source file name : String} {host : Host} {tokens moved : List Token}
    {tree : Tree} (hTokens : tokenize source file = .ok tokens)
    (hParse : parse tokens name host = .ok tree) (hMoved : Moved tokens moved) :
    ∃ (other : Tree) (f : Equiv.Perm NodeId), parse moved name host = .ok other ∧
      tree.Renamed f other ∧
      (∀ options, ∃ a b, analyze tree options = .ok a ∧ analyze other options = .ok b ∧
        ∀ id, b.get? (f id) = a.get? id) ∧
      (∀ id d, Violation other (f id) d ↔ Violation tree id d) ∧
      (check other).Perm (check tree) ∧
      ∃ ids ids' : List NodeId, ids.Nodup ∧ ids.Forall₂ (Violation tree) (check tree) ∧
        ids'.Perm (ids.map f) ∧ ids'.Forall₂ (Violation other) (check other) ∧
        (source.utf8ByteSize < 2 ^ 32 → check other = check tree ∧ ids' = ids.map f) := by
  obtain ⟨read, last, hRead, hLast, hPlain⟩ := tokenize_ended hTokens
  obtain ⟨S, rfl, rfl⟩ := hMoved.exists_swap hRead hLast hPlain
  obtain ⟨other, f, hOther, hRenamed⟩ := S.exists_parse hParse
  have hTree := parse_wellFormed hParse
  have hTree' := parse_wellFormed hOther
  refine ⟨other, f, hOther, hRenamed, fun options => ?_, hRenamed.violation_iff hTree hTree',
    hRenamed.check_perm hTree hTree', ?_⟩
  · obtain ⟨a, -, ha, -⟩ := analyze_walked hTree options
    obtain ⟨b, hb, hab⟩ := hRenamed.exists_analyze hTree ha
    exact ⟨a, b, ha, hb, hab⟩
  · obtain ⟨ids, ids', hNodup, hAll, hIds, hAll'⟩ := hRenamed.exists_faulty hTree hTree'
    by_cases hSize : source.utf8ByteSize < 2 ^ 32
    · have hCheck := hRenamed.check_eq hTree hTree' (check_increasing hSize hTokens hParse)
      refine ⟨ids, ids.map f, hNodup, hAll, .refl _, ?_, fun _ => ⟨hCheck, rfl⟩⟩
      rw [hCheck]
      exact hRenamed.counterparts hTree hAll
    · exact ⟨ids, ids', hNodup, hAll, hIds, hAll', fun hLess => absurd hLess hSize⟩

/-- A routine is moved before its first use in a loop; the use and the routine have faults. -/
theorem parse_moved_sub : ∃ (before others callable behind : List Token) (tree other : Tree)
    (f : Equiv.Perm NodeId) (a b : Annotations),
    tokenize "loop \x7b g(1); sub g \x7b break; \x7d \x7d" "a" =
      .ok (before ++ others ++ callable ++ behind) ∧
    callable.map Token.value = ["sub", "g", "\x7b", "break", ";", "\x7d"] ∧
    others.map Token.value = ["g", "(", "1", ")", ";"] ∧
    parse (before ++ others ++ callable ++ behind) "a" Host.empty = .ok tree ∧
    parse (before ++ callable ++ others ++ behind) "a" Host.empty = .ok other ∧
    tree.Renamed f other ∧ analyze tree .standard = .ok a ∧ analyze other .standard = .ok b ∧
    (∀ id, b.get? (f id) = a.get? id) ∧
    check other = [⟨.wrongArgumentCount "g" 0 1, ⟨7, "a"⟩⟩, ⟨.breakOutsideLoop, ⟨21, "a"⟩⟩] := by
  obtain ⟨before, hBefore⟩ : ∃ ts : List Token, ts =
      [⟨.keyword .loopWord, "loop", .ofOffsets "a" 0 4⟩,
        ⟨.symbol .openCurly, "\x7b", .ofOffsets "a" 5 6⟩] := ⟨_, rfl⟩
  obtain ⟨others, hOthers⟩ : ∃ ts : List Token, ts =
      [⟨.identifier, "g", .ofOffsets "a" 7 8⟩, ⟨.symbol .openParen, "(", .ofOffsets "a" 8 9⟩,
        ⟨.number, "1", .ofOffsets "a" 9 10⟩, ⟨.symbol .closeParen, ")", .ofOffsets "a" 10 11⟩,
        ⟨.symbol .semicolon, ";", .ofOffsets "a" 11 12⟩] := ⟨_, rfl⟩
  obtain ⟨callable, hCallable⟩ : ∃ ts : List Token, ts =
      [⟨.keyword .subWord, "sub", .ofOffsets "a" 13 16⟩, ⟨.identifier, "g", .ofOffsets "a" 17 18⟩,
        ⟨.symbol .openCurly, "\x7b", .ofOffsets "a" 19 20⟩,
        ⟨.keyword .breakWord, "break", .ofOffsets "a" 21 26⟩,
        ⟨.symbol .semicolon, ";", .ofOffsets "a" 26 27⟩,
        ⟨.symbol .closeCurly, "\x7d", .ofOffsets "a" 28 29⟩] := ⟨_, rfl⟩
  obtain ⟨behind, hBehind⟩ : ∃ ts : List Token, ts =
      [⟨.symbol .closeCurly, "\x7d", .ofOffsets "a" 30 31⟩, .atEnd "a" 31] := ⟨_, rfl⟩
  have hTokens : tokenize "loop \x7b g(1); sub g \x7b break; \x7d \x7d" "a" =
      .ok (before ++ others ++ callable ++ behind) := by
    rw [hBefore, hOthers, hCallable, hBehind]
    cbv
  have hRun : (do
      let tree ← parse (before ++ others ++ callable ++ behind) "a" Host.empty
      pure (check tree)) =
        Except.ok [⟨.wrongArgumentCount "g" 0 1, ⟨7, "a"⟩⟩, ⟨.breakOutsideLoop, ⟨21, "a"⟩⟩] := by
    rw [hBefore, hOthers, hCallable, hBehind]
    cbv
  have hText : CallableText callable := by
    rw [hCallable]
    exact @CallableText.mk _ _ _ [_] [_, _] rfl (by decide) rfl (by decide) rfl
  have hMoved : Moved (before ++ others ++ callable ++ behind)
      (before ++ callable ++ others ++ behind) := by
    subst hBefore hOthers hCallable hBehind
    exact .earlier (by decide) hText (by decide) (by decide) (by decide)
  obtain ⟨tree, hTree, hCheck⟩ := exists_of_bind_eq_ok hRun
  obtain ⟨other, f, hOther, hRenamed, hAnalyze, -, -, _, _, -, -, -, -, hOrder⟩ :=
    parse_moved hTokens hTree hMoved
  have hSame : check other = check tree := (hOrder (by decide)).1
  obtain ⟨a, b, ha, hb, hab⟩ := hAnalyze .standard
  refine ⟨before, others, callable, behind, tree, other, f, a, b, hTokens, ?_, ?_, hTree, hOther,
    hRenamed, ha, hb, hab, hSame.trans (Except.ok.inj hCheck)⟩
  · rw [hCallable]
    rfl
  · rw [hOthers]
    rfl

end StageScript

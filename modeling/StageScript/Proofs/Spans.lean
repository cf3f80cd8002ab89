import StageScript.Proofs.Grammar.Recognise
import StageScript.Proofs.Parse.Layout
import StageScript.Proofs.Token.Tiles

/-!
# Spans nest like the tree

The tokens of a source stand one behind the other (`Ordered`), so what lies in a row of tokens
lies in a row of the source too.  Every node of a script thus reaches from the start of a token to
the end of one, around its parts, and the parts of a node follow each other.  The root reaches
from the start of the source to the end of its last token.
-/

namespace StageScript

namespace Span

def Within (s t : Span) : Prop := t.start.offset ≤ s.start.offset ∧ s.stop.offset ≤ t.stop.offset

def Before (s t : Span) : Prop := s.stop.offset ≤ t.start.offset

end Span

/-- Where the last token before the end of the source stops. -/
def lastEnd (tokens : List Token) (file : String) : Position :=
  match tokens.dropLast.getLast? with
  | some token => token.span.stop
  | none => ⟨0, file⟩

/-- The spans of the nodes lie inside `span`, one behind the other. -/
def Tree.Nests (t : Tree) (span : Span) (ids : List NodeId) : Prop :=
  ∃ spans, List.Forall₂ (fun id s => t.span? id = some s) ids spans ∧
    (∀ s ∈ spans, s.Within span) ∧ spans.Pairwise Span.Before

/-! ### Tokens of a source -/

/-- The token ends before the other one starts, which does not end before it starts itself. -/
def Token.Leads (t u : Token) : Prop :=
  t.span.Before u.span ∧ u.span.start.offset ≤ u.span.stop.offset

instance : Trans Token.Leads Token.Leads Token.Leads :=
  ⟨fun h g => ⟨(h.1.trans h.2).trans g.1, g.2⟩⟩

/-- The tokens stand one behind the other, and the last one is the end of the source. -/
structure Ordered (ts : Array Token) : Prop where
  nonempty : ∀ {i : Nat} {a : Token}, i + 1 < ts.size → ts[i]? = some a →
    a.span.start.offset < a.span.stop.offset
  ne_eof : ∀ {i : Nat} {a : Token}, i + 1 < ts.size → ts[i]? = some a → a.kind ≠ .eof
  before : ∀ {i j : Nat} {a b : Token}, i < j → ts[i]? = some a → ts[j]? = some b →
    a.span.Before b.span

theorem ordered_of_tokenize {source file : String} {tokens : List Token}
    (hSize : source.utf8ByteSize < 2 ^ 32) (h : tokenize source file = .ok tokens) :
    Ordered tokens.toArray := by
  obtain ⟨read, hTokens, hStands, hChain⟩ := tokenize_stands hSize h
  have hRead : ∀ {i : Nat} {a : Token}, i + 1 < tokens.toArray.size →
      tokens.toArray[i]? = some a → a.StandsIn source := by
    intro i a hi ha
    rw [hTokens] at hi ha
    have hLess : i < read.length := by simpa using hi
    rw [List.getElem?_toArray, List.getElem?_append_left hLess] at ha
    exact (hStands a (List.mem_of_getElem? ha)).2
  have hSpan : ∀ t ∈ tokens, t.span.start.offset ≤ t.span.stop.offset := by
    rw [hTokens]
    simp only [List.mem_append, List.mem_singleton]
    rintro t (ht | rfl)
    · exact (hStands t ht).2.nonempty.le
    · exact Nat.le_refl _
  have hOrder : tokens.Pairwise Token.Leads := by
    refine List.IsChain.pairwise ?_
    have hNext := hChain.tail
    rw [List.tail_cons, List.isChain_map] at hNext
    exact hNext.imp_of_mem_imp fun t u _ hu hPrecedes => ⟨hPrecedes.1, hSpan u hu⟩
  refine ⟨fun hi ha => (hRead hi ha).nonempty, fun hi ha => (hRead hi ha).lexeme.kind_ne_eof, ?_⟩
  intro i j a b hij ha hb
  rw [List.getElem?_toArray] at ha hb
  obtain ⟨hi, rfl⟩ := List.getElem?_eq_some_iff.mp ha
  obtain ⟨hj, rfl⟩ := List.getElem?_eq_some_iff.mp hb
  exact (List.pairwise_iff_getElem.mp hOrder i j hi hj hij).1

namespace Ordered

variable {ts : Array Token} {t : Tree} {id : NodeId} {ids : List NodeId} {i j a b lo hi : Nat}
  {s span : Span}

theorem start_lt (h : Ordered ts) {first later : Token} (hi : ts[i]? = some first)
    (ha : ts[a]? = some later) (hia : i < a) :
    first.span.start.offset < later.span.start.offset := by
  have hInside : a < ts.size := (Array.getElem?_eq_some_iff.mp ha).1
  exact (h.nonempty (by omega) hi).trans_le (h.before hia hi ha)

theorem start_le (h : Ordered ts) {first later : Token} (hi : ts[i]? = some first)
    (ha : ts[a]? = some later) (hia : i ≤ a) :
    first.span.start.offset ≤ later.span.start.offset := by
  rcases hia.lt_or_eq with hLess | rfl
  · exact (h.start_lt hi ha hLess).le
  · cases hi.symm.trans ha
    exact Nat.le_refl _

/-- Tokens that start at the same place are the same. -/
theorem index_eq (h : Ordered ts) {first later : Token} (hi : ts[i]? = some first)
    (ha : ts[a]? = some later) (hEq : first.span.start.offset = later.span.start.offset) :
    i = a := by
  rcases Nat.lt_trichotomy i a with hLess | rfl | hLess
  · exact absurd hEq (h.start_lt hi ha hLess).ne
  · rfl
  · exact absurd hEq (h.start_lt ha hi hLess).ne'

theorem stop_le (h : Ordered ts) {last later : Token} (hb : ts[b]? = some last)
    (hj : ts[j]? = some later) (hbj : b ≤ j) (hInside : j + 1 < ts.size) :
    last.span.stop.offset ≤ later.span.stop.offset := by
  rcases hbj.lt_or_eq with hLess | rfl
  · exact (h.before hLess hb hj).trans (h.nonempty hInside hj).le
  · cases hb.symm.trans hj
    exact Nat.le_refl _

/-- The spans of nodes in a row lie one behind the other. -/
theorem nests (h : Ordered ts) (hLaid : t.Laid ts hi lo ids)
    (hSpan : ∀ id s i j, lo ≤ i → j ≤ hi → t.Covers ts id i j → t.span? id = some s →
      s.Within span) : t.Nests span ids := by
  have hRow : ∃ spans, List.Forall₂ (fun id s => t.span? id = some s) ids spans ∧
      (∀ s ∈ spans, ∃ id i j, lo ≤ i ∧ j ≤ hi ∧ t.Covers ts id i j ∧ t.span? id = some s) ∧
      spans.Pairwise Span.Before := by
    clear hSpan
    induction ids generalizing lo with
    | nil => exact ⟨[], .nil, by simp, .nil⟩
    | cons id ids ih =>
      obtain ⟨i, j, hi, hCovers, hRest⟩ := hLaid
      obtain ⟨first, last, hFirst, hLast, hs⟩ := hCovers.span
      obtain ⟨spans, hSpans, hRow, hOrder⟩ := ih hRest
      have hij := hCovers.lt
      refine ⟨_ :: spans, .cons hs hSpans, ?_, .cons ?_ hOrder⟩
      · rw [List.forall_mem_cons]
        refine ⟨⟨id, i, j, hi, hRest.le, hCovers, hs⟩, fun s hs => ?_⟩
        obtain ⟨id, a, b, ha, hb, hMore⟩ := hRow s hs
        exact ⟨id, a, b, by omega, hb, hMore⟩
      · intro s hs
        obtain ⟨id, a, b, ha, hb, hCovers, hs⟩ := hRow s hs
        obtain ⟨first, last, hFirst, -, hs'⟩ := hCovers.span
        cases hs.symm.trans hs'
        exact h.before (by omega) hLast hFirst
  obtain ⟨spans, hSpans, hRow, hOrder⟩ := hRow
  refine ⟨spans, hSpans, fun s hs => ?_, hOrder⟩
  obtain ⟨id, i, j, hi, hj, hCovers, hs⟩ := hRow s hs
  exact hSpan id s i j hi hj hCovers hs

/-- A tidy node is a stretch of the source around its parts. -/
theorem tidy (h : Ordered ts) {node : Node} (hTidy : t.Tidy ts id) (hNode : t.get? id = some node) :
    node.span.start.offset < node.span.stop.offset ∧
      (∃ token ∈ ts, node.span.start = token.span.start) ∧
      (∃ token ∈ ts, node.span.stop = token.span.stop) ∧
      t.Nests node.span node.kind.children := by
  obtain ⟨i, j, k, hCovers, hk, hLaid⟩ := hTidy
  obtain ⟨first, last, hFirst, hLast, hSpan⟩ := hCovers.span
  have hKind : node.kind = k := by simpa [Tree.kind?, hNode] using hk
  have hSpan : node.span = ⟨first.span.start, last.span.stop⟩ := by
    simpa [Tree.span?, hNode] using hSpan
  have hij := hCovers.lt
  have hInside := hCovers.inside
  rw [hKind, hSpan]
  refine ⟨?_, ⟨first, Array.mem_of_getElem? hFirst, rfl⟩, ⟨last, Array.mem_of_getElem? hLast, rfl⟩,
    h.nests hLaid fun part s a b ha hb hPart hs => ?_⟩
  · calc first.span.start.offset < first.span.stop.offset := h.nonempty (by omega) hFirst
      _ ≤ last.span.stop.offset := h.stop_le hFirst hLast (by omega) (by omega)
  · obtain ⟨start, stop, hStart, hStop, hs'⟩ := hPart.span
    cases hs.symm.trans hs'
    have hab := hPart.lt
    exact ⟨h.start_le hFirst hStart ha, h.stop_le hStop hLast (by omega) (by omega)⟩

end Ordered

/-! ### Scripts -/

theorem Definition.isHost_of_mem_definitions {host : Host} {d : Definition}
    (h : d ∈ host.definitions) : d.isHost = true := by
  rw [Host.definitions, List.mem_append, List.mem_map, List.mem_map] at h
  rcases h with ⟨f, -, rfl⟩ | ⟨c, -, rfl⟩ <;> rfl

/-- What a script is parsed to: definitions of the host, then tidy nodes, and last the root, with
its statements in a row before the end of the source. -/
theorem parse_laid {tokens : List Token} {name : String} {host : Host} {tree : Tree}
    (hProper : (Parser.start tokens name true).Proper)
    (hParse : parse tokens name host = .ok tree) :
    ∃ s ids, Parse.Since tokens.toArray 0 ids s ∧ s.file = name ∧ s.hasTokens = false ∧
      (∀ id < host.definitions.length, ∃ d, s.tree.kind? id = some (.definition d) ∧ d.isHost) ∧
      (∀ id, host.definitions.length ≤ id → id < s.tree.size → s.tree.Tidy tokens.toArray id) ∧
      tree = ⟨(s.tree.push ⟨.block ids s.table, s.spanFrom ⟨0, name⟩⟩).nodes, s.tree.size⟩ := by
  rw [parse] at hParse
  split at hParse
  · rename_i u q hRun
    cases hParse
    obtain ⟨r, s, ids, hHost, hStmts, hEnd, hTree⟩ := Parse.script_eq_ok hRun
    have hr := Parse.declareAll_eq_ok hHost
    have hNodes : r.tree.nodes.toList =
        host.definitions.map fun d => ⟨.definition d, ⟨⟨0, name⟩, ⟨0, name⟩⟩⟩ := by
      rw [hr]
      simp [Parser.hosting, Parser.start, Tree.empty]
    have hSize : r.tree.size = host.definitions.length := by
      rw [Tree.size, ← Array.length_toList, hNodes, List.length_map]
    have hStart : Parse.Since tokens.toArray 0 [] r := by
      obtain ⟨before, last, hLast, -⟩ := hProper.ends
      rw [hr]
      refine ⟨rfl, ⟨rfl, hProper.ends⟩, ?_, Nat.le_refl 0⟩
      show 0 < (Parser.start tokens name true).tokens.size
      rw [← Array.length_toList, hLast, List.length_append]
      exact Nat.succ_pos _
    obtain ⟨hSpanned, hRow⟩ := Parse.lays_stmts (Parse.laysInner _) _ _ 0 [] r s ids hStmts hStart
    have hOnward : Onward r s := Parse.Runs.related hStmts
    have hFile : s.file = name := hOnward.file.trans (by rw [hr]; rfl)
    refine ⟨s, ids, hRow, hFile, hEnd, fun id hid => ?_, fun id hLow hHigh => ?_, hTree⟩
    · have hGet : r.tree.get? id =
          some ⟨.definition host.definitions[id], ⟨⟨0, name⟩, ⟨0, name⟩⟩⟩ := by
        rw [Tree.get?, ← Array.getElem?_toList, hNodes, List.getElem?_map,
          List.getElem?_eq_getElem hid, Option.map_some]
      refine ⟨host.definitions[id], hSpanned.1.kind? ?_, ?_⟩
      · rw [Tree.kind?, hGet, Option.map_some]
      · exact Definition.isHost_of_mem_definitions (List.getElem_mem hid)
    · exact hSpanned.2 id (hSize ▸ hLow) hHigh
  · cases hParse

/-- A parser that has read all tokens of a source stands at the last one. -/
theorem previousEnd_eq_lastEnd {tokens : List Token} {s : Parser} {ids : List NodeId}
    (h : Ordered tokens.toArray) (hs : Parse.Since tokens.toArray 0 ids s)
    (hEnd : s.hasTokens = false) :
    s.pos + 1 = tokens.length ∧ s.previousEnd = lastEnd tokens s.file := by
  have hInside : s.pos < tokens.length := by simpa using hs.inside
  have hPos : s.pos + 1 = tokens.length := by
    refine Nat.le_antisymm hInside (Nat.le_of_not_lt fun hLess => ?_)
    have hKind : s.kind ≠ .eof := h.ne_eof (by simpa using hLess) hs.token
    simp [Parser.hasTokens, hs.tokens, hInside, hKind] at hEnd
  refine ⟨hPos, ?_⟩
  rw [lastEnd, List.getLast?_eq_getElem?, List.length_dropLast, List.getElem?_dropLast]
  rcases Nat.eq_zero_or_pos s.pos with hZero | hSome
  · rw [if_neg (by omega), Parser.previousEnd, hZero]
  · obtain ⟨last, hLast, hStop⟩ := hs.previousEnd_eq hSome
    rw [if_pos (by omega), hStop, ← hPos, Nat.add_sub_cancel]
    rw [List.getElem?_toArray] at hLast
    rw [hLast]

/-- The statements of a script lie inside its root. -/
theorem Ordered.nests_root {ts : Array Token} (h : Ordered ts) {s : Parser} {t : Tree}
    {ids : List NodeId} {file : String} (hs : Parse.Since ts 0 ids s) (hGrown : s.tree.Extends t) :
    t.Nests (s.spanFrom ⟨0, file⟩) ids := by
  refine h.nests (hs.laid.grow hGrown) fun part span i j hi hj hPart hSpan => ?_
  obtain ⟨first, last, -, hLast, hPartSpan⟩ := hPart.span
  cases hSpan.symm.trans hPartSpan
  have hij := hPart.lt
  have hInside := hs.inside
  obtain ⟨final, hFinal, hStop⟩ := hs.previousEnd_eq (by omega)
  refine ⟨Nat.zero_le _, ?_⟩
  show _ ≤ s.previousEnd.offset
  rw [hStop]
  exact h.stop_le hLast hFinal (by omega) (by omega)

/-- Spans nest like the tree.  Of a script of less than 2^32 bytes that was read and parsed, every
node that is not the host's does not end before it starts.  It starts where a token starts and ends
where a token ends; the root starts with the source and ends with its last token.  The parts of a
node lie inside it, one behind the other. -/
theorem parse_spans_nest {source file name : String} {host : Host} {tokens : List Token}
    {tree : Tree} (hSize : source.utf8ByteSize < 2 ^ 32)
    (hTokens : tokenize source file = .ok tokens) (hParse : parse tokens name host = .ok tree)
    {id : NodeId} {node : Node} (hNode : tree.get? id = some node)
    (hHost : ∀ d, node.kind = .definition d → d.isHost = false) :
    node.span.start.offset ≤ node.span.stop.offset ∧
    (id ≠ tree.root → (∃ token ∈ tokens, node.span.start = token.span.start) ∧
      ∃ token ∈ tokens, node.span.stop = token.span.stop) ∧
    (id = tree.root → node.span = ⟨⟨0, name⟩, lastEnd tokens name⟩) ∧
    tree.Nests node.span node.kind.children := by
  have hOrdered := ordered_of_tokenize hSize hTokens
  have hProper : (Parser.start tokens name true).Proper := .of_tokenize hTokens rfl rfl
  obtain ⟨s, ids, hRow, hFile, hEnd, hHosted, hTidy, hTree⟩ := parse_laid hProper hParse
  have hGrown : s.tree.Extends tree := by
    rw [hTree]
    exact Tree.Extends.push s.tree _
  have hRoot : tree.root = s.tree.size := by rw [hTree]
  have hNodes : tree.size = s.tree.size + 1 := by
    rw [hTree]
    exact Tree.size_push _ _
  have hId : id < tree.size := (Array.getElem?_eq_some_iff.mp hNode).1
  rcases Nat.lt_or_eq_of_le (Nat.le_of_lt_succ (hNodes ▸ hId)) with hLess | rfl
  · have hKind : s.tree.kind? id = some node.kind := by
      rw [← hGrown.kind?_of_lt hLess, Tree.kind?, hNode, Option.map_some]
    have hOwn : host.definitions.length ≤ id := by
      refine Nat.le_of_not_lt fun hFirst => ?_
      obtain ⟨d, hd, hIs⟩ := hHosted id hFirst
      have hKinds : node.kind = .definition d := Option.some.inj (hKind.symm.trans hd)
      rw [hHost d hKinds] at hIs
      cases hIs
    obtain ⟨hSpan, hStart, hStop, hParts⟩ :=
      hOrdered.tidy ((hTidy id hOwn hLess).grow hGrown) hNode
    refine ⟨hSpan.le, fun _ => ⟨?_, ?_⟩, fun hEq => ?_, hParts⟩
    · simpa using hStart
    · simpa using hStop
    · exact absurd (hEq.trans hRoot) hLess.ne
  · obtain ⟨hPos, hLast⟩ := previousEnd_eq_lastEnd hOrdered hRow hEnd
    have hBlock : node = ⟨.block ids s.table, s.spanFrom ⟨0, name⟩⟩ := by
      rw [hTree, Tree.get?, Tree.push, Tree.size, Array.getElem?_push_size] at hNode
      exact (Option.some.inj hNode).symm
    refine ⟨?_, fun hNe => absurd hRoot.symm hNe, fun _ => ?_, ?_⟩
    · rw [hBlock]
      exact Nat.zero_le _
    · rw [hBlock, Parser.spanFrom, hLast, hFile]
    · rw [hBlock]
      exact hOrdered.nests_root hRow hGrown

/-- Parentheses belong to no operand. -/
theorem parse_spans_nest_group : ∃ (tokens : List Token) (tree : Tree),
    tokenize "let x = (1 + y) * (2); // z" "a" = .ok tokens ∧
    parse tokens "a" ⟨[], [⟨"y", .real⟩]⟩ = .ok tree ∧
    tree.get? 6 = some ⟨.binary .mul 4 5, ⟨⟨9, "a"⟩, ⟨20, "a"⟩⟩⟩ ∧ tree.root = 8 ∧
    (∃ token ∈ tokens, ⟨9, "a"⟩ = token.span.start) ∧
    (∃ token ∈ tokens, ⟨20, "a"⟩ = token.span.stop) ∧
    tree.Nests ⟨⟨9, "a"⟩, ⟨20, "a"⟩⟩ [4, 5] := by
  have hRun : (do
      let tokens ← tokenize "let x = (1 + y) * (2); // z" "a"
      let tree ← parse tokens "a" ⟨[], [⟨"y", .real⟩]⟩
      pure (tree.get? 6, tree.root)) = Except.ok
        (some ⟨.binary .mul 4 5, ⟨⟨9, "a"⟩, ⟨20, "a"⟩⟩⟩, 8) := by
    cbv
  obtain ⟨tokens, hTokens, hRun⟩ := exists_of_bind_eq_ok hRun
  obtain ⟨tree, hTree, hRun⟩ := exists_of_bind_eq_ok hRun
  obtain ⟨hNode, hRoot⟩ := Prod.mk.inj (Except.ok.inj hRun)
  have hOwn : ∀ d, NodeKind.binary .mul 4 5 = .definition d → d.isHost = false := by
    intro d hd
    cases hd
  obtain ⟨-, hSpan, -, hParts⟩ := parse_spans_nest (by decide) hTokens hTree hNode hOwn
  obtain ⟨hStart, hStop⟩ := hSpan (by rw [hRoot]; decide)
  exact ⟨tokens, tree, hTokens, hTree, hNode, hRoot, hStart, hStop, hParts⟩

end StageScript

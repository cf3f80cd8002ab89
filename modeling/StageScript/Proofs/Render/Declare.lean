import StageScript.Proofs.Parse.Ledger
import StageScript.Proofs.Render.Stmt

/-!
# Items of blocks are read as they are written

An item of a block is a statement that may declare a name.  What it does to the parser is told
by `Adds`: it adds its names to the table of the block, with definitions of their own, and it
gives one node from which it can be read back.  A callable is that node itself, and stands in
the table alone; of all others the node is among the statements of the block.
-/

namespace StageScript

/-! ### Headers -/

namespace Text

theorem dropWhileRight_append_singleton {c : Char} {cs : List Char} (h : c ∉ cs) :
    dropWhileRight (· = c) (cs ++ [c]) = cs := by
  have hDrop : cs.reverse.dropWhile (· = c) = cs.reverse := by
    refine List.dropWhile_eq_self_iff.mpr fun hl hc => h ?_
    rw [← of_decide_eq_true hc]
    exact List.mem_reverse.mp (List.getElem_mem hl)
  rw [dropWhileRight, List.reverse_append, List.reverse_singleton, List.singleton_append,
    List.dropWhile_cons_of_pos (by simp), hDrop, List.reverse_reverse]

theorem splitOn_of_notMem {sep : Char} {cs : List Char} (h : sep ∉ cs) : splitOn sep cs = [cs] := by
  induction cs with
  | nil => rfl
  | cons c cs ih =>
    obtain ⟨hc, hcs⟩ := not_or.mp (List.mem_cons.not.mp h)
    rw [splitOn, if_neg (Ne.symm hc), ih hcs]

theorem splitOn_append {sep : Char} {cs rest : List Char} (h : sep ∉ cs) :
    splitOn sep (cs ++ sep :: rest) = cs :: splitOn sep rest := by
  induction cs with
  | nil => rw [List.nil_append, splitOn, if_pos rfl]
  | cons c cs ih =>
    obtain ⟨hc, hcs⟩ := not_or.mp (List.mem_cons.not.mp h)
    rw [List.cons_append, splitOn, if_neg (Ne.symm hc), ih hcs]

/-- Pieces without the separator are found again between the separators. -/
theorem splitOn_intercalate {sep : Char} {pieces : List (List Char)} (hNe : pieces ≠ [])
    (h : ∀ piece ∈ pieces, sep ∉ piece) : splitOn sep (List.intercalate [sep] pieces) = pieces := by
  induction pieces with
  | nil => exact absurd rfl hNe
  | cons piece pieces ih =>
    obtain ⟨hPiece, hPieces⟩ := List.forall_mem_cons.mp h
    by_cases hLast : pieces = []
    · rw [hLast, List.intercalate_singleton, splitOn_of_notMem hPiece]
    · rw [List.intercalate_cons_of_ne_nil hLast, List.append_assoc, List.singleton_append,
        splitOn_append hPiece, ih hLast hPieces]

theorem notMem_intercalate {c sep : Char} (hSep : c ≠ sep) {pieces : List (List Char)}
    (h : ∀ piece ∈ pieces, c ∉ piece) : c ∉ List.intercalate [sep] pieces := by
  induction pieces with
  | nil => exact List.not_mem_nil
  | cons piece pieces ih =>
    obtain ⟨hPiece, hPieces⟩ := List.forall_mem_cons.mp h
    by_cases hLast : pieces = []
    · rwa [hLast, List.intercalate_singleton]
    · simp [List.intercalate_cons_of_ne_nil hLast, hPiece, hSep, ih hPieces]

end Text

/-- The text of a header is taken apart into its name and parameters. -/
theorem headerKind_text (h : Header) :
    Parse.headerKind h.text.toList = .header h.name h.params := by
  have hName : ∀ c ∈ h.name.toList, decide (c ≠ '[') = true := by
    intro c hc
    exact decide_eq_true fun hEq => h.name_plain (hEq ▸ hc)
  rw [Header.text, String.toList_ofList, Parse.headerKind, List.takeWhile_append_of_pos hName,
    List.dropWhile_append_of_pos hName]
  by_cases hParams : h.params = []
  · simp [hParams, Text.dropWhileRight, Text.splitOn, Text.trim, Text.trimRight]
  · have hPieces : ∀ piece ∈ h.params.map String.toList,
        Text.trim piece = piece ∧ piece ≠ [] ∧ ',' ∉ piece ∧ ']' ∉ piece := by
      intro piece hPiece
      obtain ⟨s, hs, rfl⟩ := List.mem_map.mp hPiece
      obtain ⟨hNe, hTrim, hComma, hClose⟩ := h.params_plain s hs
      exact ⟨hTrim, by simpa using hNe, hComma, hClose⟩
    have hTrim : (h.params.map String.toList).map Text.trim = h.params.map String.toList :=
      (List.map_congr_left fun piece hp => (hPieces piece hp).1).trans (List.map_id' _)
    rw [if_neg hParams, List.takeWhile_cons_of_neg (by simp), List.append_nil,
      List.dropWhile_cons_of_neg (by simp), List.drop_one, List.tail_cons,
      Text.dropWhileRight_append_singleton
        (Text.notMem_intercalate (by decide) fun piece hp => (hPieces piece hp).2.2.2),
      Text.splitOn_intercalate (by simpa using hParams) fun piece hp => (hPieces piece hp).2.2.1,
      hTrim, List.filter_eq_self.mpr fun piece hp => decide_eq_true (hPieces piece hp).2.1,
      String.ofList_toList, List.map_map]
    simp
theorem Parse.judged_header {p : Parser} {rest : List Word} (hp : p.Proper) {h : Header}
    (hAhead : p.ahead = ⟨.header, h.text⟩ :: rest) :
    JudgedStmt True p rest (.header h) (header p) := by
  refine judged_advance (.refl hp hAhead) fun token r hw hr => ?_
  have hText : token.value = h.text := congrArg Word.text hw
  rw [hText, headerKind_text]
  refine judged_last hr rfl fun id u _ hMade => .of_made hMade rfl fun _ => ?_
  exact dif_pos ⟨h.name_plain, h.params_plain⟩

/-! ### Declarations -/

def Parser.declaring (p : Parser) (es : List (String × NodeId)) : Parser :=
  { p with table := ⟨p.table.entries ++ es⟩ }

@[simp] theorem Parser.declaring_nil (p : Parser) : p.declaring [] = p := by
  simp [declaring]

@[simp] theorem Parser.declaring_declaring (p : Parser) (es fs : List (String × NodeId)) :
    (p.declaring es).declaring fs = p.declaring (es ++ fs) := by
  simp [declaring]

theorem Roomy.declaring {n : Nat} {p : Parser} (h : Roomy n p) (es : List (String × NodeId)) :
    Roomy n (p.declaring es) :=
  ⟨⟨h.proper.grammar, h.proper.ends⟩, h.levels⟩

theorem After.declare {p q : Parser} {rest : List Word} {Γ : Tree → Prop} (h : After p rest Γ q)
    (es : List (String × NodeId)) : After (p.declaring es) rest Γ (q.declaring es) where
  proper := ⟨h.proper.grammar, h.proper.ends⟩
  ahead := h.ahead
  nesting := h.nesting
  table := by simp only [Parser.declaring, h.table]
  outer := h.outer
  tree := h.tree
  lasts := h.lasts

/-- The statement is kept by the node `x`.  The rule that took it replied with `found`, and added
`es` to the table. -/
structure Kept (p : Parser) (s : Stmt Term) (found : Option NodeId) (x : NodeId)
    (es : List (String × NodeId)) (t : Tree) : Prop where
  fresh : p.tree.size ≤ x
  lt : x < t.size
  items : found.toList ++ (es.map Prod.snd).filter t.isCallable = [x]
  own : ∀ e ∈ es, t.isOwn e.2 = true
  names : es.map Prod.fst = s.names
  reads : t.ReadsStmt x s

theorem Kept.of_made {p : Parser} {s : Stmt Term} {found : Option NodeId} {x : NodeId}
    {es : List (String × NodeId)} {t : Tree} {k : NodeKind} (h : Made p k x t)
    (hItems : found.toList ++ (es.map Prod.snd).filter t.isCallable = [x])
    (hOwn : ∀ e ∈ es, t.isOwn e.2 = true) (hNames : es.map Prod.fst = s.names)
    (hStmt : t.WellFormed → t.stmtOf t.block? k = some (s.map Term.expr)) :
    Kept p s found x es t where
  fresh := h.fresh
  lt := Tree.lt_size_of_kind? h.kind
  items := hItems
  own := hOwn
  names := hNames
  reads ht := by
    rw [Tree.stmt?, h.kind]
    exact hStmt ht

def Adds (p : Parser) (rest : List Word) (s : Stmt Term) (found : Option NodeId) (q : Parser) :
    Prop :=
  ∃ x es, After (p.declaring es) rest (Kept p s found x es) q

namespace Parse

variable {β : Type} {n : Nat} {inner : Inner} {p q : Parser} {rest : List Word}
  {Γ : Tree → Prop} {fits : Prop} {goal : β → Parser → Prop} {s : Stmt Term}

/-- A statement that declares nothing. -/
theorem JudgedStmt.adds {step : Parse NodeId} (h : JudgedStmt fits p rest s (step p))
    (hNames : s.names = []) : Judged fits (Adds p rest s) ((some <$> step) p) := by
  refine h.map fun id r hr => ⟨id, [], ?_⟩
  rw [Parser.declaring_nil]
  exact hr.imp fun u hu => ⟨hu.fresh, hu.lt, rfl, by simp, hNames.symm, hu.reads⟩

theorem bindName_eq {name : String} {id : NodeId} {position : Position}
    (h : name ∉ q.table.entries.map Prod.fst) :
    bindName name id position q = .ok id (q.declaring [(name, id)]) := by
  rw [bindName, NameTable.declare?, Accounted.find?_eq_none_iff.mpr h]
  rfl

theorem declare_eq {d : Definition} {span : Span} (h : d.name ∉ q.table.entries.map Prod.fst) :
    declare d span q = .ok q.tree.size
      (({ q with tree := q.tree.push ⟨.definition d, span⟩ } : Parser).declaring
        [(d.name, q.tree.size)]) :=
  (bind_of_ok rfl _).trans (bindName_eq h)

/-- A new name is declared, and then comes what follows. -/
theorem judged_declare {d : Definition} {span : Span} {next : NodeId → Parse β}
    (hq : After p rest Γ q) (hFree : d.name ∉ p.table.entries.map Prod.fst)
    (hNext : ∀ id r, After (p.declaring [(d.name, id)]) rest
      (fun u => Γ u ∧ Made p (.definition d) id u) r → Judged fits goal (next id r)) :
    Judged fits goal ((declare d span >>= next) q) := by
  rw [bind_of_ok (declare_eq (hq.table ▸ hFree))]
  exact hNext _ _ ((hq.push _ span).declare _)

theorem judged_var (hp : p.Proper) {name : String} (hFree : name ∉ p.table.entries.map Prod.fst)
    (hAhead : p.ahead = .keyword .letWord :: .name name :: .symbol .semicolon :: rest) :
    Judged True (fun id => Adds p rest (.var name none) (some id)) (varDecl inner p) := by
  refine judged_advance (.refl hp hAhead) fun first r _ hr => ?_
  refine judged_expectName hr fun token r hName hr => ?_
  rw [hName]
  refine judged_declare hr hFree fun id r hr => ?_
  refine judged_ifEat_of_ne hr (by decide) ?_
  refine judged_expectSymbol hr fun r hr => .pure ⟨id, _, hr.imp fun u hu => ?_⟩
  obtain ⟨-, hMade⟩ := hu
  refine .of_made hMade ?_ ?_ rfl fun _ => rfl
  · simp [Tree.isCallable, hMade.kind, Definition.body?]
  · simp [Tree.isOwn, hMade.kind, Definition.isVariable]

theorem judged_varInit (h : inner.Exact n) (hp : Roomy n p) {name : String} {e : Term}
    (hFree : name ∉ p.table.entries.map Prod.fst)
    (hAhead : p.ahead = .keyword .letWord :: .name name :: .symbol .assign ::
      (e.whole.words ++ .symbol .semicolon :: rest)) :
    Judged (e.whole.nesting ≤ n) (fun id => Adds p rest (.var name (some e)) (some id))
      (varDecl inner p) := by
  refine .of_iff (and_iff_left trivial) ?_
  refine judged_advance (.refl hp.proper hAhead) fun first r _ hr => ?_
  refine judged_expectName hr fun token r hName hr => ?_
  rw [hName]
  refine judged_declare hr hFree fun var r hr => ?_
  refine judged_ifEat hr rfl fun r hr => ?_
  refine judged_whole h.expr (hp.declaring _) hr (by decide) fun rhs r hr => ?_
  refine judged_expectSymbol hr fun r hr => ?_
  refine (judged_last (G := fun id => Kept p (.var name (some e)) (some id) id [(name, var)])
    hr rfl fun id u hu hMade => ?_).imp fun id r hr => ⟨id, _, hr⟩
  -- the statement is the node made last, while the name stands for the variable
  obtain ⟨⟨-, hVar⟩, hRead⟩ := hu
  refine .of_made (k := .varInit name rhs) ⟨hMade.kind, hMade.fresh⟩ ?_ ?_ rfl fun ht => ?_
  · simp [Tree.isCallable, hVar.kind, Definition.body?]
  · simp [Tree.isOwn, hVar.kind, Definition.isVariable]
  · simp [Tree.stmtOf, hRead ht]

/-- A callable is declared once its body is read. -/
theorem judged_defined {d : Definition} {span : Parser → Span} (hq : After p rest Γ q)
    (hBody : d.body?.isSome = true) (hNames : s.names = [d.name])
    (hFree : d.name ∉ p.table.entries.map Prod.fst)
    (hRead : ∀ u, Γ u → u.WellFormed → u.stmtOf u.block? (.definition d) = some (s.map Term.expr)) :
    Judged True (fun _ => Adds p rest s none)
      ((do let _ ← declare d (← look span) : Parse Unit) q) := by
  refine judged_look (judged_declare hq hFree fun id r hr => .pure ⟨id, _, hr.imp fun u hu => ?_⟩)
  obtain ⟨hΓ, hMade⟩ := hu
  refine .of_made hMade ?_ ?_ hNames.symm (hRead u hΓ)
  · simp [Tree.isCallable, hMade.kind, hBody]
  · simp [Tree.isOwn, hMade.kind, hBody]

theorem judged_subDef (h : inner.Exact n) (hp : Roomy n p) {name : String}
    {body : List (Stmt Term)} (hBody : Stmt.Distinct [] body)
    (hFree : name ∉ p.table.entries.map Prod.fst)
    (hAhead : p.ahead = .keyword .subWord :: .name name :: .symbol .openCurly ::
      ((Stmt.phrases body).words ++ .symbol .closeCurly :: rest)) :
    Judged ((Stmt.phrases body).nesting < n) (fun _ => Adds p rest (.sub name body) none)
      (subDef inner p) := by
  refine .of_iff (and_iff_left trivial) ?_
  refine judged_advance (.refl hp.proper hAhead) fun first r _ hr => ?_
  refine judged_expectName hr fun token r hName hr => ?_
  rw [hName]
  refine judged_block h hp hBody hr .nil fun id r hr => ?_
  refine judged_defined hr rfl rfl hFree fun u hu ht => ?_
  simp [Tree.stmtOf, hu.2.body ht]

theorem judged_entryRoutine (h : inner.Exact n) (hp : Roomy n p) {name : String}
    {body : List (Stmt Term)} (hBody : Stmt.Distinct [] body)
    (hFree : name ∉ p.table.entries.map Prod.fst)
    (hAhead : p.ahead = ⟨.entryRoutine, name⟩ :: .symbol .openCurly ::
      ((Stmt.phrases body).words ++ .symbol .closeCurly :: rest)) :
    Judged ((Stmt.phrases body).nesting < n) (fun _ => Adds p rest (.entryRoutine name body) none)
      (entryRoutine inner p) := by
  refine .of_iff (and_iff_left trivial) ?_
  refine judged_advance (.refl hp.proper hAhead) fun first r hw hr => ?_
  have hName : first.value = name := congrArg Word.text hw
  rw [hName]
  refine judged_block h hp hBody hr .nil fun id r hr => ?_
  refine judged_defined hr rfl rfl hFree fun u hu ht => ?_
  simp [Tree.stmtOf, hu.2.body ht]

/-! ### Functions and tasks -/

theorem item_param (name : String) : Item n .closeParen param (.name name)
    fun id u => u.kind? id = some (.definition (.param name)) where
  starts := ⟨_, _, rfl, by simp⟩
  judged := by
    intro q s rest hq hAhead _
    refine .of_iff (show True ↔ _ by simp) ?_
    refine judged_eat_of_ne (.refl hq.proper hAhead) (by simp) ?_
    refine judged_expectName (.refl hq.proper hAhead) fun token r hName hr => ?_
    rw [hName]
    exact judged_last hr rfl fun id u _ hMade => hMade.kind

@[simp] theorem nesting_commas_names (names : List String) :
    (Phrase.commas (names.map .name)).nesting = 0 := by
  induction names with
  | nil => rfl
  | cons name names ih =>
    cases names with
    | nil => rfl
    | cons next names => simpa [Phrase.commas] using ih

@[simp] theorem nesting_paramsPhrase (params : List String) :
    (Stmt.paramsPhrase params).nesting = 0 := by
  by_cases h : params = [] <;> simp [Stmt.paramsPhrase, h]

theorem judged_params (hp : Roomy n p) {names : List String}
    (hAhead : p.ahead = (Stmt.paramsPhrase names).words ++ .symbol .openCurly :: rest) :
    Judged True (fun ids r => After p (.symbol .openCurly :: rest) (fun u =>
        List.Forall₂ (fun id name => u.kind? id = some (.definition (.param name))) ids names) r)
      (params p) := by
  by_cases hNames : names = []
  · subst hNames
    have hStart := After.refl hp.proper hAhead
    exact judged_ifEat_of_ne hStart (by decide) (.pure (hStart.imp fun u _ => .nil))
  · have hWords : p.ahead = .symbol .openParen :: ((Phrase.commas (names.map .name)).words ++
        .symbol .closeParen :: .symbol .openCurly :: rest) := by
      simpa [Stmt.paramsPhrase, hNames] using hAhead
    refine judged_ifEat (.refl hp.proper hWords) rfl fun r hr => ?_
    refine .of_iff (show (Phrase.commas (names.map .name)).nesting ≤ n ↔ _ by simp) ?_
    refine (judged_commaList (by decide) (fun name _ => item_param name) (hr.roomy hp)
      hr.ahead).imp fun ids r' hr' => ?_
    exact (hr.trans hr').imp fun u hu => hu.2

theorem mapM_param? {t : Tree} {ids : List NodeId} {names : List String}
    (h : List.Forall₂ (fun id name => t.kind? id = some (.definition (.param name))) ids names) :
    ids.mapM t.param? = some names := by
  have hParams := mapM_of_forall₂ (g := id) (h.imp fun id name hk =>
    show t.param? id = some name by rw [Tree.param?, hk])
  rwa [List.map_id] at hParams

theorem offers_params {t : Tree} {ids : List NodeId} {names : List String}
    (h : List.Forall₂ (fun id name => t.kind? id = some (.definition (.param name))) ids names) :
    t.Offers ids names :=
  h.imp fun _ _ hk => ⟨_, hk, rfl, rfl⟩

theorem judged_callableDef (h : inner.Exact n) (hp : Roomy n p) {function : Bool} {name : String}
    {params : List String} {body : List (Stmt Term)}
    (hBody : Stmt.Distinct (Stmt.given function params) body)
    (hFree : name ∉ p.table.entries.map Prod.fst)
    (hAhead : p.ahead = .keyword (if function then .functionWord else .taskWord) :: .name name ::
      ((Stmt.paramsPhrase params).words ++ .symbol .openCurly ::
      ((Stmt.phrases body).words ++ .symbol .closeCurly :: rest))) :
    Judged ((Stmt.phrases body).nesting < n)
      (fun _ => Adds p rest (.callable function name params body) none) (callableDef inner p) := by
  refine .of_iff (show True ∧ (Stmt.phrases body).nesting < n ∧ True ↔ _ by simp) ?_
  refine judged_advance (.refl hp.proper hAhead) fun first r hFirst hr => ?_
  have hKind : first.kind = .keyword (if function then .functionWord else .taskWord) :=
    congrArg Word.kind hFirst
  refine judged_expectName hr fun token r hName hr => ?_
  rw [hName]
  refine Judged.bind hr (judged_params (hr.roomy hp) hr.ahead) fun ids r hr => ?_
  cases function with
  | true =>
    refine judged_ite hKind (judged_push hr rfl fun result r hr => ?_)
    have hDecls : r.tree.Offers (ids ++ [result]) (Stmt.given true params) :=
      List.rel_append (offers_params hr.holds.1.2) (.cons ⟨_, hr.holds.2.kind, rfl, rfl⟩ .nil)
    refine judged_block h hp hBody hr hDecls fun id r hr => ?_
    refine judged_pure (judged_defined hr rfl rfl hFree fun u hu ht => ?_)
    simp [Tree.stmtOf, Tree.callableOf, mapM_param? hu.1.1.2, hu.2.body ht]
  | false =>
    refine judged_ite_of_not (by simp [hKind]) ?_
    have hDecls : r.tree.Offers ids (Stmt.given false params) := by
      simpa [Stmt.given] using offers_params hr.holds.2
    refine judged_block h hp hBody hr hDecls fun id r hr => ?_
    refine judged_pure (judged_defined hr rfl rfl hFree fun u hu ht => ?_)
    simp [Tree.stmtOf, Tree.callableOf, mapM_param? hu.1.2, hu.2.body ht]

end Parse

/-! ### All statements -/

def Stmt.form {ε : Type} : Stmt ε → Form
  | header _ => .header
  | var _ _ => .varDecl
  | callable _ _ _ _ => .callableDef
  | sub _ _ => .subDef
  | entryRoutine _ _ => .entryRoutine
  | ifElse _ _ _ _ => .ifElse
  | loop _ => .loop
  | times _ _ => .times
  | whileLoop _ _ => .whileLoop
  | rangeLoop _ _ _ _ _ => .ascent
  | alternative _ _ _ => .alternative
  | localBlock _ => .localBlock
  | returnStmt _ => .returnStmt
  | yield => .yieldStmt
  | breakLoop => .breakStmt
  | assign _ _ _ _ => .assignOrCall
  | step _ _ _ => .assignOrCall
  | call _ _ => .assignOrCall
  | nop => .nop

theorem Stmt.starts (s : Stmt Term) :
    ∃ w ws, s.phrase.words = w :: ws ∧ Form.ofKind? w.kind = some s.form := by
  cases s with
  | var name init => cases init <;> exact ⟨_, _, rfl, rfl⟩
  | callable function => cases function <;> exact ⟨_, _, rfl, rfl⟩
  | rangeLoop down => cases down <;> exact ⟨_, _, rfl, rfl⟩
  | returnStmt value => cases value <;> exact ⟨_, _, rfl, rfl⟩
  | call name args => cases args <;> exact ⟨_, _, rfl, rfl⟩
  | _ => exact ⟨_, _, rfl, rfl⟩

namespace Parse

def goesOn : List TokenKind := [.keyword .elseWord, .keyword .caseWord, .keyword .othersWord]

variable {n : Nat} {inner : Inner} {p : Parser} {next : Word} {rest : List Word}

theorem stmtWith_eq (hp : p.Proper) {s : Stmt Term} (h : p.ahead = s.phrase.words ++ rest) :
    stmtWith inner p = form inner s.form p := by
  obtain ⟨w, ws, hWords, hw⟩ := s.starts
  have hKind : p.kind = w.kind := Parser.kind_of_ahead (h.trans (by rw [hWords]; rfl))
  have hForm : p.form? p.kind = some s.form := by
    rw [Parser.form?, hp.grammar, hKind]
    exact hw
  have hLook : look (fun p => p.form? p.kind) p = .ok (some s.form) p :=
    congrArg (Reply.ok · p) hForm
  rw [stmtWith, bind_of_ok hLook]

theorem judged_stmtWith (h : inner.Exact n) (hp : Roomy n p) {s : Stmt Term}
    (hFree : ∀ name ∈ s.names, name ∉ p.table.entries.map Prod.fst)
    (hBlocks : ∀ b ∈ s.blocks, Stmt.Distinct b.1 b.2)
    (hNext : next.kind ∉ goesOn) (hAhead : p.ahead = s.phrase.words ++ next :: rest) :
    Judged (s.phrase.nesting ≤ n) (Adds p (next :: rest) s) (stmtWith inner p) := by
  simp only [goesOn, List.mem_cons, List.not_mem_nil, or_false, not_or] at hNext
  obtain ⟨hElse, hCase, hOthers⟩ := hNext
  rw [stmtWith_eq hp.proper hAhead]
  -- in every case, the first goal is what fits, and the second one what the words are
  cases s with
  | header h =>
    refine .of_iff (by simp [Stmt.phrase]) (JudgedStmt.adds (judged_header hp.proper ?_) rfl)
    simpa [Stmt.phrase] using hAhead
  | var name init =>
    have hName := hFree name (by simp [Stmt.names])
    cases init with
    | none =>
      refine .of_iff (by simp [Stmt.phrase]) ((judged_var hp.proper hName ?_).map fun _ _ hr => hr)
      simpa [Stmt.phrase] using hAhead
    | some e =>
      refine .of_iff (by simp [Stmt.phrase]) ((judged_varInit h hp hName ?_).map fun _ _ hr => hr)
      simpa [Stmt.phrase] using hAhead
  | callable function name params body =>
    have hName := hFree name (by simp [Stmt.names])
    refine .of_iff ?_
      ((judged_callableDef h hp (hBlocks _ (.head _)) hName ?_).map fun _ _ hr => hr)
    · simp [Stmt.phrase]
    · simpa [Stmt.phrase] using hAhead
  | sub name body =>
    have hName := hFree name (by simp [Stmt.names])
    refine .of_iff ?_ ((judged_subDef h hp (hBlocks _ (.head _)) hName ?_).map fun _ _ hr => hr)
    · simp [Stmt.phrase]
    · simpa [Stmt.phrase] using hAhead
  | entryRoutine name body =>
    have hName := hFree name (by simp [Stmt.names])
    refine .of_iff ?_
      ((judged_entryRoutine h hp (hBlocks _ (.head _)) hName ?_).map fun _ _ hr => hr)
    · simp [Stmt.phrase]
    · simpa [Stmt.phrase] using hAhead
  | ifElse cond body branches last =>
    have hBranches : ∀ b ∈ branches, Stmt.Distinct [] b.2 := fun b hb =>
      hBlocks ([], b.2) (List.mem_append_left _ (.tail _ (List.mem_map.mpr ⟨b, hb, rfl⟩)))
    have hLast : ∀ b ∈ last, Stmt.Distinct [] b := fun b hb =>
      hBlocks ([], b) (by simpa [Stmt.blocks] using .inr (.inr hb))
    refine .of_iff ?_ (JudgedStmt.adds
      (judged_ifElse h hp hElse (hBlocks _ (.head _)) hBranches hLast ?_) rfl)
    · simp [Stmt.phrase]
    · simpa [Stmt.phrase] using hAhead
  | loop body =>
    refine .of_iff ?_ (JudgedStmt.adds (judged_loop h hp (hBlocks _ (.head _)) ?_) rfl)
    · simp [Stmt.phrase]
    · simpa [Stmt.phrase] using hAhead
  | times count body =>
    refine .of_iff ?_ (JudgedStmt.adds (judged_times h hp (hBlocks _ (.head _)) ?_) rfl)
    · simp [Stmt.phrase]
    · simpa [Stmt.phrase] using hAhead
  | whileLoop cond body =>
    refine .of_iff ?_ (JudgedStmt.adds (judged_whileLoop h hp (hBlocks _ (.head _)) ?_) rfl)
    · simp [Stmt.phrase]
    · simpa [Stmt.phrase] using hAhead
  | rangeLoop down name start stop body =>
    refine .of_iff ?_ (JudgedStmt.adds (judged_rangeLoop h hp (hBlocks _ (.head _)) ?_) rfl)
    · simp [Stmt.phrase]
    · simpa [Stmt.phrase] using hAhead
  | alternative cond cases others =>
    have hCases : ∀ c ∈ cases, Stmt.Distinct [] c.2 := fun c hc =>
      hBlocks ([], c.2) (List.mem_append_left _ (List.mem_map.mpr ⟨c, hc, rfl⟩))
    have hLast : ∀ b ∈ others, Stmt.Distinct [] b := fun b hb =>
      hBlocks ([], b) (by simpa [Stmt.blocks] using .inr hb)
    refine .of_iff ?_ (JudgedStmt.adds
      (judged_alternative h hp hCase hOthers hCases hLast ?_) rfl)
    · simp [Stmt.phrase]
    · simpa [Stmt.phrase] using hAhead
  | localBlock body =>
    refine .of_iff ?_ (JudgedStmt.adds (judged_localBlock h hp (hBlocks _ (.head _)) ?_) rfl)
    · simp [Stmt.phrase]
    · simpa [Stmt.phrase] using hAhead
  | returnStmt value =>
    cases value with
    | none =>
      refine .of_iff ?_ (JudgedStmt.adds (judged_returnVoid hp.proper ?_) rfl)
      · simp [Stmt.phrase]
      · simpa [Stmt.phrase] using hAhead
    | some e =>
      refine .of_iff ?_ (JudgedStmt.adds (judged_returnValue h hp ?_) rfl)
      · simp [Stmt.phrase]
      · simpa [Stmt.phrase] using hAhead
  | yield =>
    refine .of_iff ?_ (JudgedStmt.adds
      (judged_wordStmt (k := .yieldWord) hp.proper rfl (fun _ => rfl) ?_) rfl)
    · simp [Stmt.phrase]
    · simpa [Stmt.phrase] using hAhead
  | breakLoop =>
    refine .of_iff ?_ (JudgedStmt.adds
      (judged_wordStmt (k := .breakWord) hp.proper rfl (fun _ => rfl) ?_) rfl)
    · simp [Stmt.phrase]
    · simpa [Stmt.phrase] using hAhead
  | assign op name indices value =>
    refine .of_iff ?_ (JudgedStmt.adds (judged_assign h hp ?_) rfl)
    · simp [Stmt.phrase]
    · simpa [Stmt.phrase] using hAhead
  | step down name indices =>
    refine .of_iff ?_ (JudgedStmt.adds (judged_step h hp ?_) rfl)
    · simp [Stmt.phrase]
    · simpa [Stmt.phrase] using hAhead
  | call name args =>
    cases args with
    | nil =>
      refine .of_iff ?_ (JudgedStmt.adds (judged_callName h hp ?_) rfl)
      · simp [Stmt.phrase]
      · simpa [Stmt.phrase] using hAhead
    | cons first more =>
      refine .of_iff ?_ (JudgedStmt.adds (judged_callStmt h hp ?_) rfl)
      · simp [Stmt.phrase]
      · simpa [Stmt.phrase] using hAhead
  | nop =>
    refine .of_iff ?_ (JudgedStmt.adds (judged_nop hp.proper ?_) rfl)
    · simp [Stmt.phrase]
    · simpa [Stmt.phrase] using hAhead

end Parse

end StageScript

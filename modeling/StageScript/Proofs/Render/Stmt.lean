import StageScript.Parse.Stmt
import StageScript.Proofs.Render.Expr

/-!
# Statements are read as they are written

Every rule of statements, in front of the words of a statement of its kind, makes a node from
which the statement can be read back, if the words are nested within the levels that are left;
if not, it goes too deep.  The rules take the parsers of the expressions and blocks inside them,
which are judged for arbitrary ones that are exact themselves (`Inner.Exact`).
-/

namespace StageScript

namespace Tree

variable {t : Tree} {id : NodeId}

/-- In the tree, once it is complete, the node makes up the statement. -/
def ReadsStmt (t : Tree) (id : NodeId) (s : Stmt Term) : Prop :=
  t.WellFormed → t.stmt? id = some (s.map Term.expr)

/-- In the tree, once it is complete, the node is a block that was given these names and has
these items. -/
def ReadsBlock (t : Tree) (id : NodeId) (given : List String) (body : List (Stmt Term)) : Prop :=
  t.WellFormed → t.block? id = some (given, Stmt.mapAll Term.expr body)

theorem ReadsBlock.body {given : List String} {body : List (Stmt Term)}
    (h : t.ReadsBlock id given body) (ht : t.WellFormed) :
    BlockReader.body t.block? given id = some (Stmt.mapAll Term.expr body) := by
  simp [BlockReader.body, h ht]

def Offers (t : Tree) (ids : List NodeId) (names : List String) : Prop :=
  List.Forall₂ (fun id name => ∃ d, t.kind? id = some (.definition d) ∧ d.name = name ∧
    d.isGiven = true) ids names

end Tree

/-- The node was made for a statement: no callable, and the statement can be read from it. -/
structure Placed (p : Parser) (s : Stmt Term) (id : NodeId) (t : Tree) : Prop where
  fresh : p.tree.size ≤ id
  lt : id < t.size
  plain : t.isCallable id = false
  reads : t.ReadsStmt id s

theorem Placed.of_made {p : Parser} {s : Stmt Term} {id : NodeId} {t : Tree} {k : NodeKind}
    (h : Made p k id t) (hk : k.isDefinition = false)
    (hStmt : t.WellFormed → t.stmtOf t.block? k = some (s.map Term.expr)) : Placed p s id t where
  fresh := h.fresh
  lt := Tree.lt_size_of_kind? h.kind
  plain := by
    rw [Tree.isCallable, h.kind]
    cases k with
    | definition d => cases hk
    | _ => rfl
  reads ht := by
    rw [Tree.stmt?, h.kind]
    exact hStmt ht

namespace Parse

/-- With `n` levels left, the parser takes the blocks whose words are nested less deep, and goes
too deep in all others. -/
def BlockExact (n : Nat) (block : List NodeId → Parse NodeId) : Prop :=
  ∀ {decls : List NodeId} {given : List String} {body : List (Stmt Term)} {p : Parser}
    {rest : List Word}, Stmt.Distinct given body → Roomy n p → p.tree.Offers decls given →
    p.ahead = .symbol .openCurly :: ((Stmt.phrases body).words ++ .symbol .closeCurly :: rest) →
    Judged ((Stmt.phrases body).nesting < n)
      (fun id q => After p rest (·.ReadsBlock id given body) q) (block decls p)

structure Inner.Exact (n : Nat) (inner : Inner) : Prop where
  expr : inner.expr.Exact n
  block : BlockExact n inner.block

variable {β : Type} {n : Nat} {inner : Inner} {p q : Parser} {rest : List Word}
  {Γ : Tree → Prop} {fits more : Prop} {goal : β → Parser → Prop}

/-- An expression in parentheses, and what comes after. -/
theorem judged_condition (h : inner.Exact n) (hp : Roomy n p) {e : Term}
    (hq : After p (.symbol .openParen :: (e.whole.words ++ .symbol .closeParen :: rest)) Γ q)
    {next : NodeId → Parse β}
    (hNext : ∀ id r, After p rest (fun u => Γ u ∧ u.Reads id e) r → Judged more goal (next id r)) :
    Judged (e.whole.nesting ≤ n ∧ more) goal ((condition inner >>= next) q) := by
  have hCond : Judged (e.whole.nesting ≤ n)
      (fun id r => After p rest (fun u => Γ u ∧ u.Reads id e) r) (condition inner q) := by
    refine .of_iff (and_iff_left trivial) ?_
    refine judged_expectSymbol hq fun r hr => ?_
    refine judged_whole h.expr hp hr (by decide) fun id r hr => ?_
    exact judged_expectSymbol hr fun r hr => .pure hr
  exact hCond.seq hNext

/-- A block, and what comes after. -/
theorem judged_block (h : inner.Exact n) (hp : Roomy n p) {decls : List NodeId}
    {given : List String} {body : List (Stmt Term)} (hBody : Stmt.Distinct given body)
    (hq : After p (.symbol .openCurly :: ((Stmt.phrases body).words ++ .symbol .closeCurly :: rest))
      Γ q) (hDecls : q.tree.Offers decls given) {next : NodeId → Parse β}
    (hNext : ∀ id r, After p rest (fun u => Γ u ∧ u.ReadsBlock id given body) r →
      Judged more goal (next id r)) :
    Judged ((Stmt.phrases body).nesting < n ∧ more) goal ((inner.block decls >>= next) q) :=
  Judged.bind hq (h.block hBody (hq.roomy hp) hDecls hq.ahead) hNext

abbrev JudgedStmt (fits : Prop) (p : Parser) (rest : List Word) (s : Stmt Term) :
    Reply NodeId → Prop :=
  Judged fits fun id q => After p rest (Placed p s id) q

/-! ### Words by themselves -/

theorem judged_nop (hp : p.Proper) (hAhead : p.ahead = .symbol .semicolon :: rest) :
    JudgedStmt True p rest .nop (nop p) := by
  refine judged_advance (.refl hp hAhead) fun token r _ hr => ?_
  exact judged_last hr rfl fun id u _ hMade => .of_made hMade rfl fun _ => rfl

theorem judged_wordStmt (hp : p.Proper) {k : Keyword} {kind : NodeKind} {s : Stmt Term}
    (hKind : kind.isDefinition = false)
    (hRead : ∀ t : Tree, t.stmtOf t.block? kind = some (s.map Term.expr))
    (hAhead : p.ahead = .keyword k :: .symbol .semicolon :: rest) :
    JudgedStmt True p rest s (wordStmt kind p) := by
  refine judged_advance (.refl hp hAhead) fun token r _ hr => ?_
  refine judged_expectSymbol hr fun r hr => ?_
  exact judged_last hr rfl fun id u _ hMade => .of_made hMade hKind fun _ => hRead u

theorem judged_returnVoid (hp : p.Proper)
    (hAhead : p.ahead = .keyword .returnWord :: .symbol .semicolon :: rest) :
    JudgedStmt True p rest (.returnStmt none) (returnStmt inner p) := by
  refine judged_advance (.refl hp hAhead) fun token r _ hr => ?_
  refine judged_ifEat hr rfl fun r hr => ?_
  exact judged_last hr rfl fun id u _ hMade => .of_made hMade rfl fun _ => rfl

theorem judged_returnValue (h : inner.Exact n) (hp : Roomy n p) {e : Term}
    (hAhead : p.ahead = .keyword .returnWord :: (e.whole.words ++ .symbol .semicolon :: rest)) :
    JudgedStmt (e.whole.nesting ≤ n) p rest (.returnStmt (some e)) (returnStmt inner p) := by
  obtain ⟨w, ws, hWords, hw⟩ := e.starts_of_delimiter (s := .semicolon) (by decide)
  refine .of_iff (and_iff_left trivial) ?_
  refine judged_advance (.refl hp.proper hAhead) fun token r _ hr => ?_
  refine judged_ifEat_of_ne (hWords ▸ hr) hw ?_
  refine judged_whole h.expr hp hr (by decide) fun value r hr => ?_
  refine judged_expectSymbol hr fun r hr => ?_
  refine judged_last hr rfl fun id u hu hMade => .of_made hMade rfl fun ht => ?_
  simp [Tree.stmtOf, hu.2 ht]

/-! ### Loops -/

theorem judged_localBlock (h : inner.Exact n) (hp : Roomy n p) {body : List (Stmt Term)}
    (hBody : Stmt.Distinct [] body)
    (hAhead : p.ahead = .keyword .localWord :: .symbol .openCurly ::
      ((Stmt.phrases body).words ++ .symbol .closeCurly :: rest)) :
    JudgedStmt ((Stmt.phrases body).nesting < n) p rest (.localBlock body)
      (localBlock inner p) := by
  refine .of_iff (and_iff_left trivial) ?_
  refine judged_advance (.refl hp.proper hAhead) fun token r _ hr => ?_
  refine judged_block h hp hBody hr .nil fun id r hr => ?_
  refine judged_last hr rfl fun id u hu hMade => .of_made hMade rfl fun ht => ?_
  simp [Tree.stmtOf, hu.2.body ht]

theorem judged_loop (h : inner.Exact n) (hp : Roomy n p) {body : List (Stmt Term)}
    (hBody : Stmt.Distinct [] body)
    (hAhead : p.ahead = .keyword .loopWord :: .symbol .openCurly ::
      ((Stmt.phrases body).words ++ .symbol .closeCurly :: rest)) :
    JudgedStmt ((Stmt.phrases body).nesting < n) p rest (.loop body) (loop inner p) := by
  refine .of_iff (and_iff_left trivial) ?_
  refine judged_advance (.refl hp.proper hAhead) fun token r _ hr => ?_
  refine judged_ifAt_of_ne hr (by decide) ?_
  refine judged_block h hp hBody hr .nil fun id r hr => ?_
  refine judged_last hr rfl fun id u hu hMade => .of_made hMade rfl fun ht => ?_
  simp [Tree.stmtOf, hu.2.body ht]

theorem judged_times (h : inner.Exact n) (hp : Roomy n p) {count : Term}
    {body : List (Stmt Term)} (hBody : Stmt.Distinct [] body)
    (hAhead : p.ahead = .keyword .timesWord :: .symbol .openParen :: (count.whole.words ++
      .symbol .closeParen :: .symbol .openCurly ::
      ((Stmt.phrases body).words ++ .symbol .closeCurly :: rest))) :
    JudgedStmt (count.whole.nesting ≤ n ∧ (Stmt.phrases body).nesting < n) p rest
      (.times count body) (times inner p) := by
  refine .of_iff (and_congr_right fun _ => and_iff_left trivial) ?_
  refine judged_advance (.refl hp.proper hAhead) fun token r _ hr => ?_
  refine judged_condition h hp hr fun count r hr => ?_
  refine judged_eat_of_ne hr (by decide) ?_
  refine judged_block h hp hBody hr .nil fun id r hr => ?_
  refine judged_last hr rfl fun id u hu hMade => .of_made hMade rfl fun ht => ?_
  simp [Tree.stmtOf, hu.1.2 ht, hu.2.body ht]

theorem judged_whileLoop (h : inner.Exact n) (hp : Roomy n p) {cond : Term}
    {body : List (Stmt Term)} (hBody : Stmt.Distinct [] body)
    (hAhead : p.ahead = .keyword .whileWord :: .symbol .openParen :: (cond.whole.words ++
      .symbol .closeParen :: .symbol .openCurly ::
      ((Stmt.phrases body).words ++ .symbol .closeCurly :: rest))) :
    JudgedStmt (cond.whole.nesting ≤ n ∧ (Stmt.phrases body).nesting < n) p rest
      (.whileLoop cond body) (whileLoop inner p) := by
  refine .of_iff (and_congr_right fun _ => and_iff_left trivial) ?_
  refine judged_advance (.refl hp.proper hAhead) fun token r _ hr => ?_
  refine judged_condition h hp hr fun cond r hr => ?_
  refine judged_block h hp hBody hr .nil fun id r hr => ?_
  refine judged_last hr rfl fun id u hu hMade => .of_made hMade rfl fun ht => ?_
  simp [Tree.stmtOf, hu.1.2 ht, hu.2.body ht]

theorem judged_rangeLoop (h : inner.Exact n) (hp : Roomy n p) {down : Bool} {name : String}
    {start stop : Term} {body : List (Stmt Term)} (hBody : Stmt.Distinct [name] body)
    (hAhead : p.ahead = .keyword (if down then .descentWord else .ascentWord) ::
      .symbol .openParen :: .name name :: .keyword .inWord :: (start.whole.words ++ .symbol .dots ::
      (stop.whole.words ++ .symbol .closeParen :: .symbol .openCurly ::
      ((Stmt.phrases body).words ++ .symbol .closeCurly :: rest)))) :
    JudgedStmt (start.whole.nesting ≤ n ∧ stop.whole.nesting ≤ n ∧ (Stmt.phrases body).nesting < n)
      p rest (.rangeLoop down name start stop body) (ascent inner p) := by
  refine .of_iff (and_congr_right fun _ => and_congr_right fun _ => and_iff_left trivial) ?_
  refine judged_advance (.refl hp.proper hAhead) fun first r hFirst hr => ?_
  refine judged_expectSymbol hr fun r hr => ?_
  refine judged_eat_of_ne hr (by simp) ?_
  refine judged_expectName hr fun token r hName hr => ?_
  rw [hName]
  refine judged_push hr rfl fun loopVar r hr => ?_
  refine judged_expect hr rfl fun _ r _ hr => judged_look ?_
  refine judged_whole h.expr hp hr (by decide) fun a r hr => ?_
  refine judged_expectSymbol hr fun r hr => ?_
  refine judged_whole h.expr hp hr (by decide) fun b r hr => ?_
  refine judged_push hr rfl fun bounds r hr => ?_
  refine judged_expectSymbol hr fun r hr => ?_
  have hDecls : r.tree.Offers [loopVar] [name] :=
    .cons ⟨_, hr.holds.1.1.1.2.kind, rfl, rfl⟩ .nil
  refine judged_block h hp hBody hr hDecls fun id r hr => ?_
  have hKind : first.kind = .keyword (if down then .descentWord else .ascentWord) :=
    congrArg Word.kind hFirst
  rw [hKind]
  refine judged_last hr rfl fun id u hu hMade => ?_
  obtain ⟨⟨⟨⟨-, hStart⟩, hStop⟩, hBounds⟩, hRead⟩ := hu
  cases down with
  | false | true =>
    refine .of_made hMade rfl fun ht => ?_
    simp [Tree.stmtOf, Tree.rangeLoopOf, Tree.range?, hBounds.kind, hRead ht, hStart ht, hStop ht]

/-! ### Choices -/

def ReadsBranches (ids : List NodeId) (branches : List (Term × List (Stmt Term))) (t : Tree) :
    Prop :=
  t.WellFormed → ids.mapM (t.branch? t.block?) = some (Stmt.mapBranches Term.expr branches)

def ReadsCases (ids : List NodeId) (cases : List ((Term × List Term) × List (Stmt Term)))
    (t : Tree) : Prop :=
  t.WellFormed → ids.mapM (t.case? t.block?) = some (Stmt.mapCases Term.expr cases)

def ReadsLast (found : Option NodeId) (last : Option (List (Stmt Term))) (t : Tree) : Prop :=
  t.WellFormed → found.mapM (Tree.BlockReader.body t.block? []) = some (Stmt.mapLast Term.expr last)

theorem readsLast_some {id : NodeId} {body : List (Stmt Term)} {t : Tree}
    (h : t.ReadsBlock id [] body) : ReadsLast (some id) (some body) t := by
  intro ht
  simp [h.body ht]

variable {branches : List (Term × List (Stmt Term))} {last : Option (List (Stmt Term))}
  {next : Word}

theorem judged_elseBranches (h : inner.Exact n) (hNext : next.kind ≠ .keyword .elseWord)
    (hBranches : ∀ b ∈ branches, Stmt.Distinct [] b.2) (hLast : ∀ b ∈ last, Stmt.Distinct [] b)
    (hp : Roomy n p) {rounds : Nat}
    (hAhead : p.ahead = (Stmt.branchPhrases branches).words ++
      ((Stmt.lastPhrase .elseWord last).words ++ next :: rest))
    (hRounds : p.ahead.length < rounds) :
    Judged ((Stmt.branchPhrases branches).nesting ≤ n ∧
        (Stmt.lastPhrase .elseWord last).nesting ≤ n)
      (fun found r => After p (next :: rest)
        (fun u => ReadsBranches found.1 branches u ∧ ReadsLast found.2 last u) r)
      (elseBranches inner rounds p) := by
  induction branches generalizing p rounds with
  | nil =>
    obtain ⟨k, rfl⟩ := Nat.exists_eq_succ_of_ne_zero (Nat.ne_zero_of_lt hRounds)
    cases last with
    | none =>
      have hStart : After p (next :: rest) (fun _ => True) p := .refl hp.proper hAhead
      refine .of_iff (show True ↔ _ by simp [Stmt.branchPhrases, Stmt.lastPhrase]) ?_
      refine judged_ifAt_of_ne hStart hNext (.pure (hStart.imp fun u _ => ?_))
      exact ⟨fun _ => rfl, fun _ => rfl⟩
    | some body =>
      have hWords : p.ahead = .keyword .elseWord :: .symbol .openCurly ::
          ((Stmt.phrases body).words ++ .symbol .closeCurly :: next :: rest) := by
        simpa [Stmt.branchPhrases, Stmt.lastPhrase] using hAhead
      refine .of_iff (show (Stmt.phrases body).nesting < n ∧ True ↔ _ by
        simp [Stmt.branchPhrases, Stmt.lastPhrase]) ?_
      refine judged_ifAt (.refl hp.proper hWords) rfl ?_
      refine judged_advance (.refl hp.proper hWords) fun first r _ hr => ?_
      refine judged_ifEat_of_ne hr (by decide) ?_
      refine judged_block h hp (hLast body rfl) hr .nil fun id r hr => .pure ?_
      exact hr.imp fun u hu => ⟨fun _ => rfl, readsLast_some hu.2⟩
  | cons branch branches ih =>
    obtain ⟨k, rfl⟩ := Nat.exists_eq_succ_of_ne_zero (Nat.ne_zero_of_lt hRounds)
    obtain ⟨cond, body⟩ := branch
    obtain ⟨hBody, hBranches⟩ := List.forall_mem_cons.mp hBranches
    have hWords : p.ahead = .keyword .elseWord :: .keyword .ifWord :: .symbol .openParen ::
        (cond.whole.words ++ .symbol .closeParen :: .symbol .openCurly ::
        ((Stmt.phrases body).words ++ .symbol .closeCurly :: ((Stmt.branchPhrases branches).words ++
        ((Stmt.lastPhrase .elseWord last).words ++ next :: rest)))) := by
      simpa [Stmt.branchPhrases] using hAhead
    refine .of_iff (show cond.whole.nesting ≤ n ∧ (Stmt.phrases body).nesting < n ∧
      ((Stmt.branchPhrases branches).nesting ≤ n ∧ (Stmt.lastPhrase .elseWord last).nesting ≤ n) ∧
      True ↔ _ by simp [Stmt.branchPhrases]; omega) ?_
    refine judged_ifAt (.refl hp.proper hWords) rfl ?_
    refine judged_advance (.refl hp.proper hWords) fun first r _ hr => ?_
    refine judged_ifEat hr rfl fun r hr => ?_
    refine judged_condition h hp hr fun c r hr => ?_
    refine judged_block h hp hBody hr .nil fun b r hr => ?_
    refine judged_push hr rfl fun id r hr => ?_
    have hLess : r.ahead.length < k := Parser.length_lt_of_rounds hWords hr.ahead hRounds (by
      simp only [List.length_append, List.length_cons]
      omega)
    refine Judged.bind hr (ih hBranches (hr.roomy hp) hr.ahead hLess) ?_
    rintro ⟨ids, found⟩ r hr
    refine .pure (hr.imp fun u hu => ⟨fun ht => ?_, hu.2.2⟩)
    obtain ⟨⟨⟨⟨-, hCond⟩, hRead⟩, hMade⟩, hIds, -⟩ := hu
    simp [Tree.branch?, hMade.kind, hCond ht, hRead.body ht, hIds ht]

theorem judged_ifElse (h : inner.Exact n) (hp : Roomy n p) {cond : Term}
    {body : List (Stmt Term)} (hNext : next.kind ≠ .keyword .elseWord)
    (hBody : Stmt.Distinct [] body) (hBranches : ∀ b ∈ branches, Stmt.Distinct [] b.2)
    (hLast : ∀ b ∈ last, Stmt.Distinct [] b)
    (hAhead : p.ahead = .keyword .ifWord :: .symbol .openParen :: (cond.whole.words ++
      .symbol .closeParen :: .symbol .openCurly :: ((Stmt.phrases body).words ++
      .symbol .closeCurly :: ((Stmt.branchPhrases branches).words ++
      ((Stmt.lastPhrase .elseWord last).words ++ next :: rest))))) :
    JudgedStmt (cond.whole.nesting ≤ n ∧ (Stmt.phrases body).nesting < n ∧
      (Stmt.branchPhrases branches).nesting ≤ n ∧ (Stmt.lastPhrase .elseWord last).nesting ≤ n)
      p (next :: rest) (.ifElse cond body branches last) (ifElse inner p) := by
  refine .of_iff (and_congr_right fun _ => and_congr_right fun _ => and_iff_left trivial) ?_
  refine judged_advance (.refl hp.proper hAhead) fun first r _ hr => ?_
  refine judged_condition h hp hr fun c r hr => ?_
  refine judged_block h hp hBody hr .nil fun b r hr => judged_look ?_
  refine Judged.bind hr (judged_elseBranches h hNext hBranches hLast (hr.roomy hp) hr.ahead
    r.length_lt_rounds) ?_
  rintro ⟨ids, found⟩ r hr
  refine judged_last hr rfl fun id u hu hMade => .of_made hMade rfl fun ht => ?_
  obtain ⟨⟨⟨-, hCond⟩, hRead⟩, hIds, hFound⟩ := hu
  simp [Tree.stmtOf, hCond ht, hRead.body ht, hIds ht, hFound ht]

variable {cases : List ((Term × List Term) × List (Stmt Term))}

theorem judged_caseBranches (h : inner.Exact n) (hNext : next.kind ≠ .keyword .caseWord)
    (hCases : ∀ c ∈ cases, Stmt.Distinct [] c.2) (hp : Roomy n p) {rounds : Nat}
    (hAhead : p.ahead = (Stmt.casePhrases cases).words ++ next :: rest)
    (hRounds : p.ahead.length < rounds) :
    Judged ((Stmt.casePhrases cases).nesting ≤ n)
      (fun ids r => After p (next :: rest) (ReadsCases ids cases) r)
      (caseBranches inner rounds p) := by
  induction cases generalizing p rounds with
  | nil =>
    obtain ⟨k, rfl⟩ := Nat.exists_eq_succ_of_ne_zero (Nat.ne_zero_of_lt hRounds)
    have hStart : After p (next :: rest) (fun _ => True) p := .refl hp.proper hAhead
    refine .of_iff (show True ↔ _ by simp [Stmt.casePhrases]) ?_
    exact judged_ifAt_of_ne hStart hNext (.pure (hStart.imp fun u _ _ => rfl))
  | cons c cases ih =>
    obtain ⟨k, rfl⟩ := Nat.exists_eq_succ_of_ne_zero (Nat.ne_zero_of_lt hRounds)
    obtain ⟨⟨first, more⟩, body⟩ := c
    obtain ⟨hBody, hCases⟩ := List.forall_mem_cons.mp hCases
    have hWords : p.ahead = .keyword .caseWord ::
        ((Phrase.commas ((first :: more).map Term.whole)).parens.words ++ .symbol .openCurly ::
        ((Stmt.phrases body).words ++ .symbol .closeCurly ::
        ((Stmt.casePhrases cases).words ++ next :: rest))) := by
      simpa [Stmt.casePhrases] using hAhead
    refine .of_iff (show (Phrase.commas ((first :: more).map Term.whole)).nesting ≤ n ∧
      (Stmt.phrases body).nesting < n ∧ (Stmt.casePhrases cases).nesting ≤ n ∧ True ↔ _ by
      simp [Stmt.casePhrases]) ?_
    refine judged_ifAt (.refl hp.proper hWords) rfl ?_
    refine judged_advance (.refl hp.proper hWords) fun token r _ hr => ?_
    refine Judged.bind hr (judged_callArgs h.expr (hr.roomy hp) hr.ahead) fun ids r hr => ?_
    obtain ⟨v, vs, -, -, rfl⟩ := List.forall₂_cons_right_iff.mp hr.holds.2
    refine judged_ite_of_not (by simp) ?_
    refine judged_block h hp hBody hr .nil fun b r hr => ?_
    refine judged_push hr rfl fun id r hr => ?_
    have hLess : r.ahead.length < k := Parser.length_lt_of_rounds hWords hr.ahead hRounds (by
      simp only [List.length_append, List.length_cons]
      omega)
    refine Judged.bind hr (ih hCases (hr.roomy hp) hr.ahead hLess) fun ids r hr => .pure ?_
    refine hr.imp fun u hu ht => ?_
    obtain ⟨⟨⟨⟨-, hValues⟩, hRead⟩, hMade⟩, hIds⟩ := hu
    obtain ⟨hFirst, hMore⟩ := List.forall₂_cons.mp hValues
    simp [Tree.case?, hMade.kind, hFirst ht, Tree.Reads.mapM ht hMore, hRead.body ht, hIds ht]

theorem judged_alternative (h : inner.Exact n) (hp : Roomy n p) {cond : Term}
    (hCase : next.kind ≠ .keyword .caseWord) (hOthers : next.kind ≠ .keyword .othersWord)
    (hCases : ∀ c ∈ cases, Stmt.Distinct [] c.2) (hLast : ∀ b ∈ last, Stmt.Distinct [] b)
    (hAhead : p.ahead = .keyword .alternativeWord :: .symbol .openParen :: (cond.whole.words ++
      .symbol .closeParen :: ((Stmt.casePhrases cases).words ++
      ((Stmt.lastPhrase .othersWord last).words ++ next :: rest)))) :
    JudgedStmt (cond.whole.nesting ≤ n ∧ (Stmt.casePhrases cases).nesting ≤ n ∧
      (Stmt.lastPhrase .othersWord last).nesting ≤ n)
      p (next :: rest) (.alternative cond cases last) (alternative inner p) := by
  cases last with
  | none =>
    refine .of_iff (show cond.whole.nesting ≤ n ∧ (Stmt.casePhrases cases).nesting ≤ n ∧ True ↔ _ by
      simp [Stmt.lastPhrase]) ?_
    refine judged_advance (.refl hp.proper hAhead) fun first r _ hr => ?_
    refine judged_condition h hp hr fun c r hr => judged_look ?_
    refine Judged.bind hr (judged_caseBranches h hCase hCases (hr.roomy hp) hr.ahead
      r.length_lt_rounds) fun ids r hr => ?_
    refine judged_ifEat_of_ne hr hOthers ?_
    refine judged_last hr rfl fun id u hu hMade => .of_made hMade rfl fun ht => ?_
    obtain ⟨⟨-, hCond⟩, hIds⟩ := hu
    simp [Tree.stmtOf, hCond ht, hIds ht]
  | some body =>
    have hWords : p.ahead = .keyword .alternativeWord :: .symbol .openParen ::
        (cond.whole.words ++ .symbol .closeParen :: ((Stmt.casePhrases cases).words ++
        .keyword .othersWord :: .symbol .openCurly :: ((Stmt.phrases body).words ++
        .symbol .closeCurly :: next :: rest))) := by
      simpa [Stmt.lastPhrase] using hAhead
    refine .of_iff (show cond.whole.nesting ≤ n ∧ (Stmt.casePhrases cases).nesting ≤ n ∧
      (Stmt.phrases body).nesting < n ∧ True ↔ _ by
      simp [Stmt.lastPhrase]) ?_
    refine judged_advance (.refl hp.proper hWords) fun first r _ hr => ?_
    refine judged_condition h hp hr fun c r hr => judged_look ?_
    refine Judged.bind hr (judged_caseBranches h (by decide) hCases (hr.roomy hp) hr.ahead
      r.length_lt_rounds) fun ids r hr => ?_
    refine judged_ifEat hr rfl fun r hr => ?_
    refine judged_block h hp (hLast body rfl) hr .nil fun b r hr => ?_
    refine judged_last hr rfl fun id u hu hMade => .of_made hMade rfl fun ht => ?_
    obtain ⟨⟨⟨-, hCond⟩, hIds⟩, hRead⟩ := hu
    simp [Tree.stmtOf, hCond ht, hIds ht, readsLast_some hRead ht]

/-! ### Assignments and calls -/

theorem judged_indices {expr : ExprParser} (hExpr : expr.Exact n)
    (hNext : next.kind ≠ .symbol .openBracket) {es : List Term} (hp : Roomy n p) {rounds : Nat}
    (hAhead : p.ahead = (Stmt.indexPhrases es).words ++ next :: rest)
    (hRounds : p.ahead.length < rounds) :
    Judged ((Stmt.indexPhrases es).nesting ≤ n)
      (fun ids r =>
        After p (next :: rest) (fun u => List.Forall₂ (fun id e => u.Reads id e) ids es) r)
      (indices expr rounds p) := by
  induction es generalizing p rounds with
  | nil =>
    obtain ⟨k, rfl⟩ := Nat.exists_eq_succ_of_ne_zero (Nat.ne_zero_of_lt hRounds)
    have hStart : After p (next :: rest) (fun _ => True) p := .refl hp.proper hAhead
    refine .of_iff (show True ↔ _ by simp [Stmt.indexPhrases]) ?_
    exact judged_ifEat_of_ne hStart hNext (.pure (hStart.imp fun u _ => .nil))
  | cons e es ih =>
    obtain ⟨k, rfl⟩ := Nat.exists_eq_succ_of_ne_zero (Nat.ne_zero_of_lt hRounds)
    have hWords : p.ahead = .symbol .openBracket :: (e.whole.words ++ .symbol .closeBracket ::
        ((Stmt.indexPhrases es).words ++ next :: rest)) := by
      simpa [Stmt.indexPhrases] using hAhead
    refine .of_iff (show e.whole.nesting ≤ n ∧ (Stmt.indexPhrases es).nesting ≤ n ∧ True ↔ _ by
      simp [Stmt.indexPhrases]) ?_
    refine judged_ifEat (.refl hp.proper hWords) rfl fun r hr => ?_
    refine judged_whole hExpr hp hr (by decide) fun id r hr => ?_
    refine judged_expectSymbol hr fun r hr => ?_
    have hLess : r.ahead.length < k := Parser.length_lt_of_rounds hWords hr.ahead hRounds (by
      simp only [List.length_append, List.length_cons]
      omega)
    refine Judged.bind hr (ih (hr.roomy hp) hr.ahead hLess) fun ids r hr => .pure ?_
    exact hr.imp fun u hu => .cons hu.1.2 hu.2

def ReadsTarget (id : NodeId) (name : String) (es : List Term) (t : Tree) : Prop :=
  t.WellFormed → t.target? id = some (name, es.map Term.expr)

/-- A statement that starts with a target, by what is done with it. -/
theorem judged_target (h : inner.Exact n) (hp : Roomy n p) {name : String} {es : List Term}
    {s : Symbol} (hs : s ∉ [.openParen, .openBracket, .semicolon]) {after : List Word}
    {stmt : Stmt Term}
    (hAhead : p.ahead = .name name :: ((Stmt.indexPhrases es).words ++ .symbol s :: rest))
    (hUpdate : ∀ lhs operator r, operator.word = .symbol s →
      After p rest (ReadsTarget lhs name es) r →
      Judged more (fun kind r => After p (.symbol .semicolon :: after) (fun u =>
          kind.isDefinition = false ∧
            (u.WellFormed → u.stmtOf u.block? kind = some (stmt.map Term.expr))) r)
        (update inner.expr lhs operator r)) :
    JudgedStmt ((Stmt.indexPhrases es).nesting ≤ n ∧ more) p after stmt (assignOrCall inner p) := by
  simp only [List.mem_cons, List.not_mem_nil, or_false, not_or] at hs
  obtain ⟨hParen, hBracket, hSemicolon⟩ := hs
  refine .of_iff (and_congr_right fun _ => and_iff_left trivial) ?_
  refine judged_advance (.refl hp.proper hAhead) fun token r hw hr => ?_
  have hName : token.value = name := congrArg Word.text hw
  rw [hName]
  obtain ⟨w, ws, hWords, hFirst⟩ : ∃ w ws, (Stmt.indexPhrases es).words ++ .symbol s :: rest =
      w :: ws ∧ w.kind ≠ .symbol .openParen := by
    cases es with
    | nil => exact ⟨_, _, rfl, by simpa using hParen⟩
    | cons e es => exact ⟨_, _, rfl, by decide⟩
  refine judged_ifAt_of_ne (hWords ▸ hr) hFirst (judged_look ?_)
  refine Judged.bind hr (judged_indices h.expr (by simpa using hBracket) (hr.roomy hp) hr.ahead
    r.length_lt_rounds) fun ids r hr => ?_
  have hRest : JudgedStmt (more ∧ True) p after stmt ((do
      let lhs ← pushFrom token.span.start (.target name ids)
      let operator ← advance
      let kind ← update inner.expr lhs operator
      expectSymbol .semicolon
      pushFrom token.span.start kind : Parse NodeId) r) := by
    refine judged_push hr rfl fun lhs r hr => ?_
    refine judged_advance hr fun operator r hOperator hr => ?_
    refine (hUpdate lhs operator r hOperator (hr.imp fun u hu ht => ?_)).seq fun kind r hr => ?_
    · simp [Tree.target?, hu.2.kind, Tree.Reads.mapM ht hu.1.2]
    · refine judged_expectSymbol hr fun r hr => ?_
      exact judged_last hr rfl fun id u hu hMade => .of_made hMade hu.1 hu.2
  -- a name without indices could still be a call, but no semicolon follows it
  by_cases hIds : ids.isEmpty
  · exact judged_ite hIds (judged_eat_of_ne hr (by simpa using hSemicolon) hRest)
  · exact judged_ite_of_not hIds hRest

theorem update_of_assign {expr : ExprParser} {op : AssignOp} {operator : Token} (lhs : NodeId)
    (h : operator.word = .symbol op.symbol) :
    update expr lhs operator = (do return .assign op lhs (← expr .lowest)) := by
  have hKind : operator.kind = .symbol op.symbol := congrArg Word.kind h
  cases op <;> rw [update, hKind] <;> rfl

theorem judged_assign (h : inner.Exact n) (hp : Roomy n p) {op : AssignOp} {name : String}
    {es : List Term} {e : Term}
    (hAhead : p.ahead = .name name :: ((Stmt.indexPhrases es).words ++ .symbol op.symbol ::
      (e.whole.words ++ .symbol .semicolon :: rest))) :
    JudgedStmt ((Stmt.indexPhrases es).nesting ≤ n ∧ e.whole.nesting ≤ n) p rest
      (.assign op name es e) (assignOrCall inner p) := by
  refine judged_target h hp (by cases op <;> decide) hAhead fun lhs operator r hOperator hr => ?_
  rw [update_of_assign lhs hOperator]
  refine .of_iff (and_iff_left trivial) ?_
  refine judged_whole h.expr hp hr (by decide) fun rhs r hr => .pure ?_
  refine hr.imp fun u hu => ⟨rfl, fun ht => ?_⟩
  simp [Tree.stmtOf, hu.1 ht, hu.2 ht]

theorem judged_step (h : inner.Exact n) (hp : Roomy n p) {down : Bool} {name : String}
    {es : List Term}
    (hAhead : p.ahead = .name name :: ((Stmt.indexPhrases es).words ++
      .symbol (if down then .minusMinus else .plusPlus) :: .symbol .semicolon :: rest)) :
    JudgedStmt ((Stmt.indexPhrases es).nesting ≤ n) p rest (.step down name es)
      (assignOrCall inner p) := by
  refine .of_iff (and_iff_left trivial) ?_
  refine judged_target h hp (by cases down <;> decide) hAhead fun lhs operator r hOperator hr => ?_
  have hKind : operator.kind = .symbol (if down then .minusMinus else .plusPlus) :=
    congrArg Word.kind hOperator
  cases down with
  | false | true =>
    rw [update, hKind]
    refine .pure (hr.imp fun u hu => ⟨rfl, fun ht => ?_⟩)
    simp [Tree.stmtOf, hu ht]

/-- A call without arguments is a name by itself. -/
theorem judged_callName (h : inner.Exact n) (hp : Roomy n p) {name : String}
    (hAhead : p.ahead = .name name :: .symbol .semicolon :: rest) :
    JudgedStmt True p rest (.call name []) (assignOrCall inner p) := by
  refine judged_advance (.refl hp.proper hAhead) fun token r hw hr => ?_
  have hName : token.value = name := congrArg Word.text hw
  rw [hName]
  refine judged_ifAt_of_ne hr (by decide) (judged_look ?_)
  refine .of_iff (show (Stmt.indexPhrases []).nesting ≤ n ∧ True ↔ _ by simp [Stmt.indexPhrases]) ?_
  refine Judged.bind hr (judged_indices h.expr (by decide) (hr.roomy hp) hr.ahead
    r.length_lt_rounds) fun ids r hr => ?_
  cases hr.holds.2
  refine judged_ite rfl (judged_ifEat hr rfl fun r hr => ?_)
  exact judged_last hr rfl fun id u _ hMade => .of_made hMade rfl fun _ => rfl

theorem judged_callStmt (h : inner.Exact n) (hp : Roomy n p) {name : String} {args : List Term}
    (hAhead : p.ahead = .name name :: ((Phrase.commas (args.map Term.whole)).parens.words ++
      .symbol .semicolon :: rest)) :
    JudgedStmt ((Phrase.commas (args.map Term.whole)).nesting ≤ n) p rest (.call name args)
      (assignOrCall inner p) := by
  refine .of_iff (and_iff_left trivial) ?_
  refine judged_advance (.refl hp.proper hAhead) fun token r hw hr => ?_
  have hName : token.value = name := congrArg Word.text hw
  rw [hName]
  refine judged_ifAt hr rfl ?_
  refine Judged.bind hr (judged_callArgs h.expr (hr.roomy hp) hr.ahead) fun ids r hr => ?_
  refine judged_expectSymbol hr fun r hr => ?_
  refine judged_last hr rfl fun id u hu hMade => .of_made hMade rfl fun ht => ?_
  simp [Tree.stmtOf, Tree.Reads.mapM ht hu.2]

end Parse

end StageScript

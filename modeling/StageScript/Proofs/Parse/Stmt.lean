import StageScript.Proofs.Parse.Block
import StageScript.Proofs.Parse.Expr

/-!
# Statements keep the ledger

Every form of statement makes one node, or declares a callable and makes none.  As with
expressions, each rule is judged for arbitrary parsers of the expressions and blocks inside
it, and `makesBlock_blockAt` closes the circle.
-/

namespace StageScript.Parse

structure Inner.Sound (inner : Inner) : Prop where
  expr : MakesExpr inner.expr
  block : MakesBlock inner.block

/-- A block that is given nothing. -/
theorem Inner.Sound.bare {inner : Inner} (h : inner.Sound) : Makes (inner.block []) := by
  intro base held stmts loose
  refine ((h.block [] base held stmts loose).strengthen ?_).weaken fun _ _ hs => hs.1
  intro s hs
  exact ⟨by simpa using hs, by simp [Given]⟩

theorem makes_condition {inner : Inner} (h : inner.Sound) : Makes (condition inner) := by
  intro base held stmts loose
  refine (reads_expectSymbol _).bind fun _ => (h.expr _ _ _ _ _).bind fun cond => ?_
  exact (reads_expectSymbol _).bind fun _ => .pure fun _ hs => hs

/-! ### Declarations -/

theorem makesStmt_varDecl {inner : Inner} (h : inner.Sound) : MakesStmt (some <$> varDecl inner) := by
  intro base held stmts loose
  have hRule : Triple (At base held stmts loose) (varDecl inner) fun id s =>
      At base held (stmts ++ [id]) loose s ∧ s.Statement id := by
    refine reads_advance.bind fun first => (reads_expectName _).bind fun token => ?_
    refine (declare_variable token.value token.span).bind fun id => ?_
    refine (reads_eat _).bind fun b => .ite (fun _ => ?_) fun _ => ?_
    · -- The variable stays in the table alone, and the node that sets it is the statement.
      have hSet : Triple (At base held stmts loose)
          (do
            let rhs ← inner.expr .lowest
            expectSymbol .semicolon
            pushFrom first.span.start (.varInit token.value rhs))
          fun id => At base (held ++ [id]) stmts loose := by
        refine (h.expr _ _ _ _ _).bind fun rhs => ?_
        exact (reads_expectSymbol _).bind fun _ =>
          pushFrom_part _ rfl rfl (by simp [NodeKind.children])
      refine (hSet.strengthen fun s hs => hs.1).weaken fun id s hs => ⟨⟨hs.1, hs.2.settle⟩, ?_⟩
      exact hs.2.statement_of_plain (List.mem_singleton_self id)
    · exact (reads_expectSymbol _).bind fun _ => .pure fun s hs => hs.2
  refine hRule.map fun id s hs => ⟨hs.1, ?_⟩
  intro i hi
  rw [List.mem_singleton.mp hi]
  exact hs.2

/-- The parameters are loose until the body is opened. -/
theorem params_loose {base : Store} {held stmts loose : List NodeId} :
    Triple (At base held stmts loose) params fun ids s =>
      At base held stmts (loose ++ ids) s ∧ s.tree.Params ids := by
  have hParam : ∀ done, Triple
      (fun s => At base held stmts (loose ++ done) s ∧ s.tree.Params done)
      param fun id s => At base held stmts (loose ++ (done ++ [id])) s ∧
        s.tree.Params (done ++ [id]) := by
    intro done
    refine (reads_eat _).bind fun _ => (reads_expectName _).bind fun token => ?_
    rintro p ⟨hp, hDone⟩
    have hs := push_loose (d := .param token.value) rfl (by simp) token.span p hp
    refine ⟨by simpa using hs.1, List.pairwise_append.mpr ⟨hDone.ascending, by simp, ?_⟩, ?_⟩
    · intro i hi j hj
      obtain ⟨name, hn⟩ := hDone.param i hi
      rw [List.mem_singleton.mp hj]
      exact Tree.lt_size_of_kind? hn
    · intro i hi
      rcases List.mem_append.mp hi with hi | hi
      · obtain ⟨name, hn⟩ := hDone.param i hi
        exact ⟨name, (Tree.Extends.push _ _).kind? hn⟩
      · rw [List.mem_singleton.mp hi]
        exact ⟨token.value, hs.2⟩
  refine (reads_eat _).bind fun b => .ite (fun _ => ?_) fun _ => ?_
  · refine ((Triple.commaList .closeParen hParam []).strengthen ?_).weaken fun ids s hs => hs
    intro s hs
    exact ⟨by simpa using hs, .nil, by simp⟩
  · exact .pure fun s hs => ⟨by simpa using hs, .nil, by simp⟩

theorem given_params {s : Store} {ids : List NodeId} (h : s.tree.Params ids) : Given s ids := by
  intro id hid
  obtain ⟨name, hn⟩ := h.param id hid
  exact ⟨_, hn, rfl⟩

/-- The definition of a callable whose body has just been parsed, and was given `decls`. -/
def Bodied (base : Store) (held stmts loose decls : List NodeId) (d : Definition) (s : Store) :
    Prop :=
  ∃ body, d.body? = some body ∧ d.isGiven = false ∧ At base (held ++ [body]) stmts loose s ∧
    ∃ ids table, s.tree.kind? body = some (.block ids table) ∧ s.tree.given table = decls ∧
      s.tree.Gives d decls

def Defined (t : Tree) (d : Definition) (decls : List NodeId) : Prop :=
  ∃ id body ids table, t.kind? id = some (.definition d) ∧ d.body? = some body ∧
    t.kind? body = some (.block ids table) ∧ ∀ i ∈ decls, i ∈ table.entries.map Prod.snd

theorem declare_bodied {base : Store} {held stmts loose decls : List NodeId} (d : Definition)
    (span : Span) :
    Triple (Bodied base held stmts loose decls d) (declare d span) fun _ s =>
      At base held stmts loose s ∧ Defined s.tree d decls := by
  rintro p ⟨body, hb, hg, ⟨hGrows, ha⟩, ids, table, hk, hTable, hGives⟩
  -- Judged from the store before the declaration, so that the body stays known.
  have hDeclare : Triple _ (declare d span) fun id s =>
      At p.store held stmts loose s ∧ s.tree.kind? id = some (.definition d) :=
    declare_callable hg hb span
  refine hDeclare.weaken ?_ p ⟨⟨.refl _, ha⟩, ids, table, hk, hTable ▸ hGives⟩
  rintro id s ⟨hs, hid⟩
  refine ⟨hs.rebase hGrows, id, body, ids, table, hid, hb, hs.1.tree.kind? hk, fun i hi => ?_⟩
  rw [← hTable] at hi
  exact (List.mem_filter.mp hi).1

/-- A body is parsed with what it is given, and makes a definition. -/
theorem block_bodied {inner : Inner} (h : inner.Sound) {base : Store}
    {held stmts loose decls : List NodeId} {d : NodeId → Definition}
    (hBody : ∀ b, (d b).body? = some b) (hNot : ∀ b, (d b).isGiven = false) {pre : Store → Prop}
    (hPre : ∀ s, pre s → At base held stmts (loose ++ decls) s ∧ Given s decls ∧
      ∀ b, s.tree.Gives (d b) decls) :
    Triple pre (inner.block decls) fun b => Bodied base held stmts loose decls (d b) := by
  intro p hp
  obtain ⟨⟨hg, ha⟩, hGiven, hGives⟩ := hPre _ hp
  -- Judged from the store before the block, so that what was known of it is kept.
  refine (h.block decls p.store held stmts loose).weaken ?_ p ⟨⟨.refl _, ha⟩, hGiven⟩
  rintro b s ⟨hAt, ids, table, hk, hTable⟩
  exact ⟨b, hBody b, hNot b, hAt.rebase hg, ids, table, hk, hTable, (hGives b).mono hAt.1.tree⟩

/-- The end of a definition. -/
theorem declareFrom_bodied {base : Store} {held stmts loose decls : List NodeId} (d : Definition)
    (start : Position) :
    Triple (Bodied base held stmts loose decls d)
      (do
        let _ ← declare d (← look (·.spanFrom start)))
      fun _ s => At base held stmts loose s ∧ Defined s.tree d decls :=
  (reads_look _).bind fun span => (declare_bodied d span).bind fun _ => .pure fun _ hs => hs

/-- A function, after its parameters. -/
theorem function_held {inner : Inner} (h : inner.Sound) (name : String) (ids : List NodeId)
    (span : Span) (start : Position) {base : Store} {held stmts loose : List NodeId} :
    Triple (fun s => At base held stmts (loose ++ ids) s ∧ s.tree.Params ids)
      (do
        let result ← push (.definition .result) span
        let body ← inner.block (ids ++ [result])
        let _ ← declare (.func name ids body) (← look (·.spanFrom start)))
      fun _ => At base held stmts loose := by
  rintro p ⟨⟨hg, ha⟩, hIds⟩
  -- Judged from the store with the result, which has to reach the function's table.
  let s₀ : Store := p.store.push ⟨.definition .result, span⟩
  have hResult : s₀.tree.kind? p.tree.size = some (.definition .result) := Tree.kind?_push_size _ _
  have hParams : s₀.tree.Params ids := hIds.mono (.push _ _)
  have hAccounted : Accounted s₀ held stmts (loose ++ (ids ++ [p.tree.size])) := by
    have hd : Accounted p.store (held ++ Definition.result.body?.toList) stmts (loose ++ ids) := by
      simpa [Definition.body?] using ha
    rw [← List.append_assoc]
    exact hd.push_definition (by simp [Definition.body?]) span
  have hGiven : Given s₀ (ids ++ [p.tree.size]) := by
    intro id hid
    rcases List.mem_append.mp hid with hid | hid
    · exact given_params hParams id hid
    · rw [List.mem_singleton.mp hid]
      exact ⟨_, hResult, rfl⟩
  have hBody : Triple (fun s => s = s₀) (inner.block (ids ++ [p.tree.size])) fun b =>
      Bodied s₀ held stmts loose (ids ++ [p.tree.size]) (.func name ids b) := by
    refine block_bodied h (fun _ => rfl) (fun _ => rfl) ?_
    rintro s rfl
    exact ⟨⟨.refl _, hAccounted⟩, hGiven, fun b => ⟨hParams, _, hResult, rfl⟩⟩
  have hRest : Triple (fun s => s = s₀)
      (do
        let body ← inner.block (ids ++ [p.tree.size])
        let _ ← declare (.func name ids body) (← look (·.spanFrom start)))
      fun _ => At base held stmts loose := by
    refine hBody.bind fun body => (declareFrom_bodied _ _).weaken ?_
    rintro _ s ⟨hs, f, b, stmts, table, hf, hb, hk, hm⟩
    cases hb
    have hIn : s.tree.InFunction p.tree.size :=
      ⟨f, name, ids, body, stmts, table, hf, hk, hm _ (by simp)⟩
    exact ⟨hg.trans (.of_result hs.1 hIn), hs.2⟩
  exact hRest { p with tree := s₀.tree } rfl

theorem makesStmt_callableDef {inner : Inner} (h : inner.Sound) :
    MakesStmt ((fun _ => none) <$> callableDef inner) := by
  intro base held stmts loose
  have hRule : Triple (At base held stmts loose) (callableDef inner)
      fun _ => At base held stmts loose := by
    refine reads_advance.bind fun first => (reads_expectName _).bind fun token => ?_
    refine params_loose.bind fun ids => .ite (fun _ => ?_) fun _ => ?_
    · exact function_held h token.value ids first.span first.span.start
    · refine (block_bodied h (d := .task token.value ids) (fun _ => rfl) (fun _ => rfl) ?_).bind
        fun body => (declareFrom_bodied _ _).weaken fun _ _ hs => hs.1
      rintro s ⟨hs, hIds⟩
      exact ⟨hs, given_params hIds, fun b => ⟨hIds, rfl⟩⟩
  exact hRule.map fun _ s hs => ⟨by simpa using hs, by simp⟩

/-- A callable without parameters. -/
theorem bare_bodied {inner : Inner} (h : inner.Sound) {d : NodeId → Definition}
    (hBody : ∀ b, (d b).body? = some b) (hNot : ∀ b, (d b).isGiven = false)
    (hGives : ∀ b t, Tree.Gives t (d b) []) {base : Store} {held stmts loose : List NodeId} :
    Triple (At base held stmts loose) (inner.block [])
      fun b => Bodied base held stmts loose [] (d b) :=
  block_bodied h hBody hNot fun s hs =>
    ⟨by simpa using hs, by simp [Given], fun b => hGives b s.tree⟩

theorem makesStmt_subDef {inner : Inner} (h : inner.Sound) :
    MakesStmt ((fun _ => none) <$> subDef inner) := by
  intro base held stmts loose
  have hRule : Triple (At base held stmts loose) (subDef inner) fun _ => At base held stmts loose := by
    refine reads_advance.bind fun first => (reads_expectName _).bind fun token => ?_
    exact (bare_bodied h (d := .sub token.value) (fun _ => rfl) (fun _ => rfl) fun _ _ => rfl).bind
      fun body => (declareFrom_bodied _ _).weaken fun _ _ hs => hs.1
  exact hRule.map fun _ s hs => ⟨by simpa using hs, by simp⟩

theorem makesStmt_entryRoutine {inner : Inner} (h : inner.Sound) :
    MakesStmt ((fun _ => none) <$> entryRoutine inner) := by
  intro base held stmts loose
  have hRule : Triple (At base held stmts loose) (entryRoutine inner)
      fun _ => At base held stmts loose := by
    refine reads_advance.bind fun first => ?_
    exact (bare_bodied h (d := .entryRoutine first.value) (fun _ => rfl) (fun _ => rfl)
      fun _ _ => rfl).bind fun body => (declareFrom_bodied _ _).weaken fun _ _ hs => hs.1
  exact hRule.map fun _ s hs => ⟨by simpa using hs, by simp⟩

theorem makes_header : Makes header := by
  intro base held stmts loose
  exact reads_advance.bind fun token => push_part _ rfl rfl (by simp [headerKind, NodeKind.children])

/-! ### Control -/

theorem elseBranches_held {inner : Inner} (h : inner.Sound) (n : Nat) {base : Store}
    {stmts loose : List NodeId} : ∀ held, Triple (At base held stmts loose) (elseBranches inner n)
      fun found => At base (held ++ (found.1 ++ found.2.toList)) stmts loose := by
  induction n with
  | zero =>
    intro held
    exact .pure fun s hs => by simpa using hs
  | succ n ih =>
    intro held
    refine (reads_atKind _).bind fun b => .ite (fun _ => ?_) fun _ => .pure fun s hs => by
      simpa using hs
    refine reads_advance.bind fun first => (reads_eat _).bind fun b => .ite (fun _ => ?_) fun _ => ?_
    · refine (makes_condition h _ _ _ _).bind fun cond => (h.bare _ _ _ _).bind fun body => ?_
      have hPush : Triple (At base (held ++ [cond] ++ [body]) stmts loose)
          (pushFrom first.span.start (.elseIf cond body))
          fun id => At base (held ++ [id]) stmts loose :=
            pushFrom_part _ rfl rfl (by simp [NodeKind.children])
      refine hPush.bind fun branch => (ih _).bind fun rest => .pure fun s hs => ?_
      simpa using hs
    · exact (h.bare _ _ _ _).bind fun body => .pure fun s hs => by simpa using hs

theorem makes_ifElse {inner : Inner} (h : inner.Sound) : Makes (ifElse inner) := by
  intro base held stmts loose
  refine reads_advance.bind fun first => (makes_condition h _ _ _ _).bind fun cond => ?_
  refine (h.bare _ _ _ _).bind fun body => (reads_look _).bind fun n => ?_
  exact (elseBranches_held h n _).bind fun found =>
    pushFrom_part _ rfl rfl (by simp [NodeKind.children])

theorem makes_loop {inner : Inner} (h : inner.Sound) : Makes (loop inner) := by
  intro base held stmts loose
  refine reads_advance.bind fun first => (reads_atSymbol _).bind fun b => ?_
  refine .ite (fun _ => ?_) fun _ => ?_
  · refine (makes_condition h _ _ _ _).bind fun count => (h.bare _ _ _ _).bind fun body => ?_
    exact pushFrom_part _ rfl rfl (by simp [NodeKind.children])
  · exact (h.bare _ _ _ _).bind fun body => pushFrom_part _ rfl rfl (by simp [NodeKind.children])

theorem makes_times {inner : Inner} (h : inner.Sound) : Makes (times inner) := by
  intro base held stmts loose
  refine reads_advance.bind fun first => (makes_condition h _ _ _ _).bind fun count => ?_
  exact (reads_eat _).bind fun _ => (h.bare _ _ _ _).bind fun body =>
    pushFrom_part _ rfl rfl (by simp [NodeKind.children])

theorem makes_whileLoop {inner : Inner} (h : inner.Sound) : Makes (whileLoop inner) := by
  intro base held stmts loose
  refine reads_advance.bind fun first => (makes_condition h _ _ _ _).bind fun cond => ?_
  exact (h.bare _ _ _ _).bind fun body => pushFrom_part _ rfl rfl (by simp [NodeKind.children])

theorem makes_ascent {inner : Inner} (h : inner.Sound) : Makes (ascent inner) := by
  intro base held stmts loose
  refine reads_advance.bind fun first => (reads_expectSymbol _).bind fun _ => ?_
  refine (reads_eat _).bind fun _ => (reads_expectName _).bind fun token => ?_
  refine (push_loose (d := .loopVar token.value) rfl (by simp) token.span).bind fun loopVar => ?_
  refine (reads_expect _).bind fun _ => (reads_look _).bind fun rangeStart => ?_
  -- The loop variable is loose while the bounds are parsed, and known to be one.
  intro p hp
  have hBounds : Triple (At p.store held stmts (loose ++ [loopVar]))
      (do
        let start ← inner.expr .lowest
        expectSymbol .dots
        let stop ← inner.expr .lowest
        let bounds ← pushFrom rangeStart (.range start stop)
        expectSymbol .closeParen
        let body ← inner.block [loopVar]
        pushFrom first.span.start
          (if first.kind = .keyword .descentWord then .descent bounds body else .ascent bounds body))
      fun id => At p.store (held ++ [id]) stmts loose := by
    refine (h.expr _ _ _ _ _).bind fun start => (reads_expectSymbol _).bind fun _ => ?_
    refine (h.expr _ _ _ _ _).bind fun stop => ?_
    have hRange : Triple (At p.store (held ++ [start] ++ [stop]) stmts (loose ++ [loopVar]))
        (pushFrom rangeStart (.range start stop))
        fun id => At p.store (held ++ [id]) stmts (loose ++ [loopVar]) :=
          pushFrom_part _ rfl rfl (by simp [NodeKind.children])
    refine hRange.bind fun bounds => (reads_expectSymbol _).bind fun _ => ?_
    refine ((h.block [loopVar] _ _ _ _).strengthen fun s hs => ⟨hs, ?_⟩).bind fun body => ?_
    · intro id hid
      rw [List.mem_singleton.mp hid]
      exact ⟨_, hs.1.tree.kind? hp.2, rfl⟩
    · refine Triple.strengthen ?_ fun s hs => hs.1
      by_cases hDescent : first.kind = .keyword .descentWord
      · simp only [if_pos hDescent]
        exact pushFrom_part _ rfl rfl (by simp [NodeKind.children])
      · simp only [if_neg hDescent]
        exact pushFrom_part _ rfl rfl (by simp [NodeKind.children])
  exact (hBounds.weaken fun id s hs => hs.rebase hp.1.1) p ⟨.refl _, hp.1.2⟩

theorem caseBranches_held {inner : Inner} (h : inner.Sound) (n : Nat) {base : Store}
    {stmts loose : List NodeId} : ∀ held, Triple (At base held stmts loose) (caseBranches inner n)
      fun ids => At base (held ++ ids) stmts loose := by
  induction n with
  | zero =>
    intro held
    exact .pure fun s hs => by simpa using hs
  | succ n ih =>
    intro held
    refine (reads_atKind _).bind fun b => .ite (fun _ => ?_) fun _ => .pure fun s hs => by
      simpa using hs
    refine reads_advance.bind fun first => (makesAll_callArgs h.expr _ _ _ _).bind fun values => ?_
    refine .ite (fun _ => (reads_unexpected _).bind fun _ => ?_) fun _ => ?_
    all_goals
      refine (h.bare _ _ _ _).bind fun body => ?_
      have hPush : Triple (At base (held ++ values ++ [body]) stmts loose)
          (pushFrom first.span.start (.caseOf values body))
          fun id => At base (held ++ [id]) stmts loose :=
            pushFrom_part _ rfl rfl (by simp [NodeKind.children])
      refine hPush.bind fun branch => (ih _).bind fun rest => .pure fun s hs => ?_
      simpa using hs

theorem makes_alternative {inner : Inner} (h : inner.Sound) : Makes (alternative inner) := by
  intro base held stmts loose
  refine reads_advance.bind fun first => (makes_condition h _ _ _ _).bind fun cond => ?_
  refine (reads_look _).bind fun n => (caseBranches_held h n _).bind fun branches => ?_
  refine (reads_eat _).bind fun b => .ite (fun _ => ?_) fun _ => ?_
  · exact (h.bare _ _ _ _).bind fun body => pushFrom_part _ rfl rfl (by simp [NodeKind.children])
  · exact pushFrom_part _ rfl rfl (by simp [NodeKind.children])

theorem makes_localBlock {inner : Inner} (h : inner.Sound) : Makes (localBlock inner) := by
  intro base held stmts loose
  exact reads_advance.bind fun first => (h.bare _ _ _ _).bind fun body =>
    pushFrom_part _ rfl rfl (by simp [NodeKind.children])

theorem makes_returnStmt {inner : Inner} (h : inner.Sound) : Makes (returnStmt inner) := by
  intro base held stmts loose
  refine reads_advance.bind fun first => (reads_eat _).bind fun b => .ite (fun _ => ?_) fun _ => ?_
  · exact pushFrom_part _ rfl rfl (by simp [NodeKind.children])
  · refine (h.expr _ _ _ _ _).bind fun value => ?_
    exact (reads_expectSymbol _).bind fun _ => pushFrom_part _ rfl rfl (by simp [NodeKind.children])

theorem makes_wordStmt {k : NodeKind} (hd : k.isDefinition = false) (he : k.entries = [])
    (hc : k.children = []) : Makes (wordStmt k) := by
  intro base held stmts loose
  refine reads_advance.bind fun first => (reads_expectSymbol _).bind fun _ => ?_
  exact pushFrom_part _ hd he (by simp [hc])

theorem makes_nop : Makes nop := by
  intro base held stmts loose
  exact reads_advance.bind fun token => push_part _ rfl rfl (by simp [NodeKind.children])

/-! ### Assignments and calls -/

theorem indices_held {expr : ExprParser} (h : MakesExpr expr) (n : Nat) {base : Store}
    {stmts loose : List NodeId} : ∀ held, Triple (At base held stmts loose) (indices expr n)
      fun ids => At base (held ++ ids) stmts loose := by
  induction n with
  | zero =>
    intro held
    exact .pure fun s hs => by simpa using hs
  | succ n ih =>
    intro held
    refine (reads_eat _).bind fun b => .ite (fun _ => ?_) fun _ => .pure fun s hs => by
      simpa using hs
    refine (h _ _ _ _ _).bind fun id => (reads_expectSymbol _).bind fun _ => ?_
    refine (ih _).bind fun rest => .pure fun s hs => ?_
    simpa using hs

/-- The node that an operator makes of its target. -/
theorem update_held {expr : ExprParser} (h : MakesExpr expr) (lhs : NodeId) (operator : Token)
    {base : Store} {held stmts loose : List NodeId} :
    Triple (At base (held ++ [lhs]) stmts loose) (update expr lhs operator) fun k s =>
      At base (held ++ k.children) stmts loose s ∧ k.isDefinition = false ∧ k.entries = [] := by
  rw [update]
  split
  · exact .pure fun s hs => ⟨hs, rfl, rfl⟩
  · exact .pure fun s hs => ⟨hs, rfl, rfl⟩
  · split
    · exact (h _ _ _ _ _).bind fun rhs => .pure fun s hs =>
        ⟨by simpa [NodeKind.children] using hs, rfl, rfl⟩
    · exact fun _ _ => rfl

/-- An assignment, after its target's name and indices. -/
theorem assignment_held {inner : Inner} (h : inner.Sound) (name : String) (ids : List NodeId)
    (start : Position) {base : Store} {held stmts loose : List NodeId} :
    Triple (At base (held ++ ids) stmts loose)
      (do
        let lhs ← pushFrom start (.target name ids)
        let operator ← advance
        let kind ← update inner.expr lhs operator
        expectSymbol .semicolon
        pushFrom start kind)
      fun id => At base (held ++ [id]) stmts loose := by
  have hTarget : Triple (At base (held ++ ids) stmts loose) (pushFrom start (.target name ids))
      fun id => At base (held ++ [id]) stmts loose :=
        pushFrom_part _ rfl rfl (by simp [NodeKind.children])
  refine hTarget.bind fun lhs => reads_advance.bind fun operator => ?_
  refine (update_held h.expr lhs operator).bind fun k => (reads_expectSymbol _).bind fun _ => ?_
  rintro p ⟨hp, hd, he⟩
  exact pushFrom_part start hd he rfl p hp

theorem makes_assignOrCall {inner : Inner} (h : inner.Sound) : Makes (assignOrCall inner) := by
  intro base held stmts loose
  refine reads_advance.bind fun token => (reads_atSymbol _).bind fun b => ?_
  refine .ite (fun _ => ?_) fun _ => ?_
  · refine (makesAll_callArgs h.expr _ _ _ _).bind fun args => ?_
    exact (reads_expectSymbol _).bind fun _ => pushFrom_part _ rfl rfl (by simp [NodeKind.children])
  · refine (reads_look _).bind fun n => (indices_held h.expr n _).bind fun ids => ?_
    refine .ite (fun hIds => ?_) fun _ => ?_
    · refine (reads_eat _).bind fun called => .ite (fun _ => ?_) fun _ => ?_
      · rw [List.isEmpty_iff.mp hIds]
        exact pushFrom_part _ rfl rfl (by simp [NodeKind.children])
      · exact assignment_held h _ ids _
    · exact assignment_held h token.value ids token.span.start

/-! ### Whole statements and blocks -/

theorem makesStmt_form {inner : Inner} (h : inner.Sound) (kind : Form) :
    MakesStmt (form inner kind) := by
  cases kind with
  | varDecl => exact makesStmt_varDecl h
  | callableDef => exact makesStmt_callableDef h
  | subDef => exact makesStmt_subDef h
  | entryRoutine => exact makesStmt_entryRoutine h
  | header => exact makes_header.stmt
  | ifElse => exact (makes_ifElse h).stmt
  | loop => exact (makes_loop h).stmt
  | times => exact (makes_times h).stmt
  | whileLoop => exact (makes_whileLoop h).stmt
  | ascent => exact (makes_ascent h).stmt
  | alternative => exact (makes_alternative h).stmt
  | localBlock => exact (makes_localBlock h).stmt
  | returnStmt => exact (makes_returnStmt h).stmt
  | yieldStmt => exact (makes_wordStmt rfl rfl rfl).stmt
  | breakStmt => exact (makes_wordStmt rfl rfl rfl).stmt
  | assignOrCall => exact (makes_assignOrCall h).stmt
  | nop => exact makes_nop.stmt

theorem makesStmt_stmtWith {inner : Inner} (h : inner.Sound) : MakesStmt (stmtWith inner) := by
  intro base held stmts loose
  refine (reads_look _).bind fun found => ?_
  cases found with
  | none => exact fun _ _ => rfl
  | some kind => exact makesStmt_form h kind _ _ _ _

theorem makesStmts_stmts {inner : Inner} (h : inner.Sound) (stop : Parser → Bool) (n : Nat) :
    MakesStmts (stmts inner stop n) := by
  induction n with
  | zero =>
    intro base held before loose
    exact .pure fun s hs => ⟨by simpa using hs, by simp⟩
  | succ n ih =>
    intro base held before loose
    refine (reads_look _).bind fun b => .ite (fun _ => ?_) fun _ => .pure fun s hs =>
      ⟨by simpa using hs, by simp⟩
    refine (makesStmt_stmtWith h _ _ _ _).bind fun found => ?_
    rintro p ⟨hp, hFound⟩
    -- The rest is judged from here, so that the first statement stays one.
    have hRest : Triple (At p.store held (before ++ found.toList) loose)
        (do
          let rest ← stmts inner stop n
          return found.toList ++ rest)
        fun ids s => At p.store held (before ++ ids) loose s ∧ ∀ id ∈ ids, s.Statement id := by
      refine (ih _ _ _ _).bind fun rest => .pure fun s hs => ⟨by simpa using hs.1, ?_⟩
      intro id hid
      rcases List.mem_append.mp hid with hid | hid
      · exact hs.1.1.statement (hp.2.stmt_lt id (List.mem_append_right _ hid)) (hFound id hid)
      · exact hs.2 id hid
    exact (hRest.weaken fun ids s hs => ⟨hs.1.rebase hp.1, hs.2⟩) p ⟨.refl _, hp.2⟩

theorem makesBlock_blockWith {inner : Inner} (h : inner.Sound) : MakesBlock (blockWith inner) := by
  intro decls base held before loose
  refine (reads_expect _).bind fun first => reads_enter.bind fun _ => ?_
  refine .intro fun s₀ hs₀ => ?_
  have hOpen : Triple (fun u => (At base held before (loose ++ decls) u ∧ Given u decls) ∧ u = s₀)
      pushScope fun _ s => Accounted s held before (loose ++ decls) ∧
        Opened s₀.tree (s₀.table :: s₀.outer) [] s := by
    rintro p ⟨hp, rfl⟩
    exact ⟨hp.1.2.open_block, rfl, rfl, rfl⟩
  refine hOpen.bind fun _ => (declareAll_opened decls []).bind fun _ => .intro fun s₁ hs₁ => ?_
  obtain ⟨ha, hTree, hOuter, hDecls⟩ := hs₁
  have hGiven : Given s₁ decls := by
    intro id hid
    rw [hTree]
    exact hs₀.2 id hid
  refine (reads_look _).bind fun n => ?_
  refine ((makesStmts_stmts h _ n s₁ held before loose).strengthen ?_).bind fun ids => ?_
  · rintro s ⟨hs, rfl⟩
    exact ⟨.refl _, hs.1⟩
  · refine (reads_expectSymbol _).bind fun _ => ?_
    exact close_block hs₀.1.1 hTree hOuter hDecls hGiven _

theorem sound_inner (levels : Nat) (h : MakesBlock (blockAt levels)) :
    Inner.Sound ⟨exprAt levels, blockAt levels⟩ :=
  ⟨makes_exprAt levels, h⟩

theorem makesBlock_blockAt (levels : Nat) : MakesBlock (blockAt levels) := by
  induction levels with
  | zero =>
    intro decls base held before loose
    refine (reads_expectSymbol _).bind fun _ => ?_
    exact fun _ _ => rfl
  | succ levels ih => exact makesBlock_blockWith (sound_inner levels ih)

theorem sound_innerOf (p : Parser) : (innerOf p).Sound :=
  sound_inner _ (makesBlock_blockAt _)

end StageScript.Parse

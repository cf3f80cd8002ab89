import StageScript.Proofs.Twin.Stmt

/-!
# Blocks side by side

The statements of two blocks go side by side, one by one.  Where the next tokens may differ, what
comes up to the end of the block is up to who compares the parsers (`Bridges`).  With that, blocks
and all that stands inside them make nodes that are alike (`simInner_of_bridges`).
-/

set_option synthInstance.maxSize 4000

namespace StageScript.Twin

open Parse

variable {P : Twin} {links : Links} {p q r s : Parser} {inner : Inner}

/-! ### Statements in turn -/

/-- From a place where the next tokens may differ, in a block of the given depth and behind the
token `i`, the parsers come to the end of the block side by side. -/
def Bridges (P : Twin) (inner : Inner) (stop : Parser → Bool) (depth i : Nat) : Prop :=
  ∀ (n m : Nat) (links : Links) (p q : Parser), P.Abreast none False links p q →
    p.outer.length = depth → i ≤ p.pos → P.near p.pos q.pos → P.rounds p.pos q.pos n m →
    Agree P (fun ids ids' => P.Abreast none True ((ids, ids') :: links)) (stmts inner stop n p)
      (stmts inner stop m q)

def StopsAlike (P : Twin) (stop : Parser → Bool) : Prop :=
  ∀ {links : Links} {p q : Parser}, P.Abreast none True links p q → stop q = stop p

theorem stopsAlike_never : StopsAlike P fun _ => false := fun _ => rfl

theorem stopsAlike_closeCurly : StopsAlike P fun p => p.kind = .symbol .closeCurly :=
  fun h => congrArg (fun kind => decide (kind = .symbol .closeCurly)) h.kind_eq

theorem Abreast.hasTokens_eq {σ : Option Nat} (h : P.Abreast σ True links p q) :
    q.hasTokens = p.hasTokens := by
  have hSize : q.pos < q.tokens.size ↔ p.pos < p.tokens.size := by
    rw [h.left, h.right]
    exact P.size_iff h.meets
  rw [Parser.hasTokens, Parser.hasTokens, h.kind_eq, decide_eq_decide.mpr hSize]

section Statements

variable [∀ power, Parse.Runs Onward (inner.expr power)]
  [∀ decls, Parse.Runs Onward (inner.block decls)]

theorem sim_stmts (h : SimInner P inner) {stop : Parser → Bool} (hStop : StopsAlike P stop)
    {depth i : Nat} (hBridges : Bridges P inner stop depth i) (n : Nat) :
    ∀ (m : Nat) (links : Links),
    Sim P (fun p q => P.Abreast none False links p q ∧ p.outer.length = depth ∧ i ≤ p.pos ∧
        P.rounds p.pos q.pos n m)
      (stmts inner stop n) (stmts inner stop m)
      fun ids ids' => P.Abreast none True ((ids, ids') :: links) := by
  induction n with
  | zero =>
    rintro m links p q ⟨hpq, hDepth, hPos, hRounds⟩
    by_cases hNear : P.near p.pos q.pos
    · exact hBridges _ _ _ p q hpq hDepth hPos hNear hRounds
    · rw [(P.rounds_zero hRounds).mp rfl]
      exact .ok { hpq.nil with clear := fun _ => hNear }
  | succ n ih =>
    rintro m links p q ⟨hpq, hDepth, hPos, hRounds⟩
    by_cases hNear : P.near p.pos q.pos
    · exact hBridges _ _ _ p q hpq hDepth hPos hNear hRounds
    · have hClear : P.Abreast none True links p q := { hpq with clear := fun _ => hNear }
      cases m with
      | zero => exact (not_rounds_zero hRounds).elim
      | succ m =>
        have hMore : (q.hasTokens && !stop q) = (p.hasTokens && !stop p) := by
          rw [hClear.hasTokens_eq, hStop hClear]
        show Agree P _ ((if (p.hasTokens && !stop p) = true then _ else _ : Parse _) p)
          ((if (q.hasTokens && !stop q) = true then _ else _ : Parse _) q)
        rw [hMore]
        split
        · refine (sim_stmtWith h links p q hClear).self.bind ?_
          rintro a b p' q' ⟨hMid, hLeft, hRight⟩
          have hOnward : Onward p p' := Runs.related hLeft
          have hRest : P.rounds p'.pos q'.pos n m :=
            P.rounds_succ hRounds (Takes.pos_lt hLeft) (Takes.pos_lt hRight) hMid.meets
          refine (ih m _ p' q' ⟨hMid, ?_, hPos.trans hOnward.pos_le, hRest⟩).bind ?_
          · rw [hOnward.outer, hDepth]
          · exact fun ids ids' p q h => .ok <|
              h.relink fun ρ hρ => .cons (List.rel_append hρ.tail.list hρ.list) hρ.tail.tail
        · exact .ok hClear.nil

end Statements

/-! ### Into a block and out of it -/

theorem Chains.length_lt {ρ : NodeId → NodeId → Prop} {c d : Chain} (h : P.Chains ρ c d) :
    P.leftOuter.length < c.length := by
  induction h with
  | base h hn => exact Nat.lt_succ_self _
  | inner h hn hc ih => exact Nat.lt_succ_of_lt ih

/-- Further in than the block that the parsers started in, the tables are alike. -/
theorem Chains.inner_of_lt {ρ : NodeId → NodeId → Prop} {t u : NameTable} {c d : Chain}
    (h : P.Chains ρ (t :: c) (u :: d)) (hc : P.leftOuter.length < c.length) :
    t.Alike P.exact ρ u ∧ P.Chains ρ c d := by
  cases h with
  | base => exact absurd hc (Nat.lt_irrefl _)
  | inner h _ hRest => exact ⟨h, hRest⟩

/-- In the block that the parsers started in, the tables are alike but for what was declared
before. -/
theorem Chains.base_of_le {ρ : NodeId → NodeId → Prop} {t u : NameTable} {c d : Chain}
    (h : P.Chains ρ (t :: c) (u :: d)) (hc : c.length ≤ P.leftOuter.length) :
    ∃ es fs, t = ⟨P.leftNames ++ es⟩ ∧ u = ⟨P.rightNames ++ fs⟩ ∧
      (⟨es⟩ : NameTable).Alike P.exact ρ ⟨fs⟩ := by
  cases h with
  | base h _ => exact ⟨_, _, rfl, rfl, h⟩
  | inner _ _ hRest => exact absurd hc (Nat.not_le.mpr hRest.length_lt)

theorem Abreast.leftOuter_lt {σ : Option Nat} {clear : Prop} (h : P.Abreast σ clear links p q) :
    P.leftOuter.length < (p.table :: p.outer).length := by
  obtain ⟨ρ, -, -, -, hChains⟩ := h.nodes
  exact hChains.length_lt

theorem Abreast.inBlock (h : P.Abreast none True links p q) (hOpen : p.kind = .symbol .openCurly) :
    P.Abreast none False links p.inBlock q.inBlock := by
  obtain ⟨ρ, hFits, hLinked, hHold, hChains⟩ := h.nodes
  refine { left := h.left, right := h.right, file := h.file, grammar := h.grammar
           nesting := congrArg (· + 1) h.nesting, meets := P.meets_succ h.meets (h.clear trivial)
           clear := False.elim, opens := fun he => ?_, nodes := ⟨ρ, hFits, hLinked, hHold, ?_⟩ }
  · rw [show p.inBlock.pos = p.pos + 1 from rfl, h.opens_succ he, hOpen]
    rfl
  · exact .inner .nil List.nodup_nil hChains

/-- Behind a block, its tables are alike because of the nodes that they name. -/
theorem Abreast.behindBlock {ids ids' : List NodeId} {σ : Option Nat} {clear : Prop} {more : Links}
    (h : P.Abreast none True ((ids, ids') :: links) r s) (hpq : P.Abreast σ clear more p q)
    (hClose : r.kind = .symbol .closeCurly) (hr : Onward p.inBlock r) (hs : Onward q.inBlock s) :
    ∃ xs ys, (∀ τ : NodeId → NodeId → Prop, xs.Forall₂ τ ys → r.table.Alike P.exact τ s.table) ∧
      P.Abreast none False ((xs, ys) :: (ids, ids') :: links) (r.behindBlock p.table p.outer)
        (s.behindBlock q.table q.outer) := by
  obtain ⟨ρ, hFits, hLinked, hHold, hChains⟩ := h.nodes
  have hOuter : r.outer = p.table :: p.outer := hr.outer
  have hOuter' : s.outer = q.table :: q.outer := hs.outer
  rw [hOuter, hOuter'] at hChains
  obtain ⟨hTables, hRest⟩ := hChains.inner_of_lt hpq.leftOuter_lt
  obtain ⟨xs, ys, hNodes, hBack⟩ := hTables.link
  refine ⟨xs, ys, hBack, ?_⟩
  refine { left := h.left, right := h.right, file := h.file, grammar := h.grammar
           nesting := congrArg (· - 1) h.nesting, meets := P.meets_succ h.meets (h.clear trivial)
           clear := False.elim, opens := fun he => ?_
           nodes := ⟨ρ, hFits, hLinked, .cons hNodes hHold, hRest⟩ }
  rw [show (r.behindBlock p.table p.outer).pos = r.pos + 1 from rfl, h.opens_succ he, hClose,
    hOuter]
  simp [Parser.behindBlock, TokenKind.turn, TokenKind.parens]

/-! ### Whole blocks -/

def blockBody (inner : Inner) (decls : List NodeId) : Parse (List NodeId) := do
  decls.forM fun id => do
    let _ ← declareExisting id
  stmts inner (fun p => p.kind = .symbol .closeCurly) (← look Parser.rounds)

def blockEnd (start : Position) (ids : List NodeId) : Parse NodeId := do
  expectSymbol .closeCurly
  let table ← popScope
  leave
  pushFrom start (.block ids table)

theorem blockWith_eq {decls : List NodeId} (hOpen : p.kind = .symbol .openCurly)
    (hRoom : p.nesting < maxNesting) :
    blockWith inner decls p = (blockBody inner decls >>= blockEnd p.position) p.inBlock := by
  have hFirst : expect (.symbol .openCurly) p = .ok p.current p.advanced := if_pos hOpen
  have hEnter : enter p.advanced = .ok () { p.advanced with nesting := p.nesting + 1 } :=
    if_neg (Nat.not_le.mpr hRoom)
  rw [blockWith, bind_of_ok hFirst, bind_of_ok hEnter, blockBody, bind_bind]
  rfl

theorem blockEnd_eq {start : Position} {ids : List NodeId} {t : NameTable} {c : Chain}
    (hClose : r.kind = .symbol .closeCurly) (hOuter : r.outer = t :: c) :
    blockEnd start ids r = pushFrom start (.block ids r.table) (r.behindBlock t c) := by
  have hSymbol : expectSymbol .closeCurly r = .ok () r.advanced := by
    rw [expectSymbol, bind_of_ok (if_pos hClose)]
    rfl
  rw [blockEnd, bind_of_ok hSymbol, bind_of_ok (popScope_of_outer (p := r.advanced) hOuter)]
  rfl

theorem sim_blockEnd {start start' : Position} {ids ids' : List NodeId} {σ : Option Nat}
    {clear : Prop} {more : Links} (hpq : P.Abreast σ clear more p q)
    (hStart : start' = start) (hr : Onward p.inBlock r) (hs : Onward q.inBlock s)
    (h : P.Abreast none True ((ids, ids') :: links) r s) :
    Agree P (fun a b => P.Abreast none False (([a], [b]) :: links)) (blockEnd start ids r)
      (blockEnd start' ids' s) := by
  by_cases hClose : r.kind = .symbol .closeCurly
  · obtain ⟨xs, ys, hTables, hBehind⟩ := h.behindBlock hpq hClose hr hs
    rw [blockEnd_eq hClose hr.outer, blockEnd_eq (h.kind_eq.trans hClose) hs.outer]
    exact sim_pushFrom_of_eq [(xs, ys), (ids, ids')]
      (fun ρ hρ => .block hρ.tail.list (hTables ρ hρ.list)) hStart _ _ hBehind
  · have hFail : ∀ (start : Position) (ids : List NodeId) {r : Parser},
        r.kind ≠ .symbol .closeCurly → blockEnd start ids r =
          .fail (r.complaint s!"expected {TokenKind.name (.symbol .closeCurly)}") r := by
      intro start ids r hr
      exact bind_of_fail (bind_of_fail (if_neg hr) _) _
    rw [hFail _ _ hClose, hFail _ _ (by rwa [h.kind_eq])]
    exact .fail fun he => h.complaint_eq he _

/-- Names that only the right parser held are lost behind a block too. -/
theorem lost_blockEnd {start : Position} {ids : List NodeId} {σ : Option Nat} {clear : Prop}
    {more : Links} {d : Diagnostic} {s' : Parser} {post : NodeId → NodeId → Parser → Parser → Prop}
    (hpq : P.Abreast σ clear more p q) (hr : Onward p.inBlock r) (h : P.Lost r d)
    (hc : P.Clash s' d) :
    Agree P post (blockEnd start ids r) (.fail d s') := by
  cases hEnd : blockEnd start ids r with
  | fail e r' => exact .clash hc
  | ok id r' =>
    obtain ⟨u, r'', hSymbol, -⟩ := bind_eq_ok hEnd
    obtain ⟨hClose, -⟩ := expectSymbol_eq_ok hSymbol
    rw [blockEnd_eq hClose hr.outer] at hEnd
    cases hEnd
    obtain ⟨name, table, hd, hName, hTable, hMem⟩ := h
    refine .lost ⟨name, table, hd, hName, ?_, hMem⟩ hc
    have hOuter : r.outer = p.table :: p.outer := hr.outer
    rw [table?_of_lt (by rw [hOuter]; exact hpq.leftOuter_lt), hOuter] at hTable
    exact hTable

section Blocks

variable [∀ power, Parse.Runs Onward (inner.expr power)]
  [∀ decls, Parse.Runs Onward (inner.block decls)]

instance runs_blockBody (decls : List NodeId) : Parse.Runs Onward (blockBody inner decls) := by
  unfold blockBody
  infer_instance

theorem sim_blockWith (h : SimInner P inner)
    (hBridges : ∀ depth, P.leftOuter.length < depth →
      Bridges P inner (fun p => p.kind = .symbol .closeCurly) depth 0)
    (ids ids' : List NodeId) (links : Links) :
    Sim P (P.Abreast none True ((ids, ids') :: links)) (blockWith inner ids) (blockWith inner ids')
      fun a b => P.Abreast none False (([a], [b]) :: links) := by
  intro p q hpq
  by_cases hOpen : p.kind = .symbol .openCurly
  · have hOpen' : q.kind = .symbol .openCurly := hpq.kind_eq.trans hOpen
    have hIn := hpq.inBlock hOpen
    rcases Nat.lt_or_ge p.nesting maxNesting with hRoom | hFull
    · rw [blockWith_eq hOpen hRoom, blockWith_eq hOpen' (by rwa [hpq.nesting])]
      have hBody : Agree P (fun as bs => P.Abreast none True ((as, bs) :: links))
          (blockBody inner ids p.inBlock) (blockBody inner ids' q.inBlock) := by
        refine (sim_declareAll ids ids' _ _ hIn).self.bind fun _ _ r s ⟨hMid, hDecls, _⟩ => ?_
        have hr : Onward p.inBlock r := Runs.related hDecls
        have hDepth : P.leftOuter.length < r.outer.length := by
          rw [hr.outer]
          exact hpq.leftOuter_lt
        exact sim_stmts h stopsAlike_closeCurly (hBridges _ hDepth) r.rounds s.rounds links r s
          ⟨hMid, rfl, Nat.zero_le _, hMid.rounds⟩
      cases hLeft : blockBody inner ids p.inBlock with
      | fail d r => exact hBody.bind_of_fail hLeft
      | ok as r =>
        have hr : Onward p.inBlock r := Runs.related hLeft
        rw [hLeft] at hBody
        rw [bind_of_ok hLeft]
        cases hRight : blockBody inner ids' q.inBlock with
        | ok bs s =>
          rw [hRight] at hBody
          rw [bind_of_ok hRight]
          cases hBody with
          | ok h => exact sim_blockEnd hpq hpq.start_eq hr (Runs.related hRight) h
        | fail e s =>
          rw [hRight] at hBody
          rw [bind_of_fail hRight]
          cases hBody with
          | lost h hc => exact lost_blockEnd hpq hr h hc
    · have hDeep : ∀ {p : Parser} (decls : List NodeId), p.kind = .symbol .openCurly →
          maxNesting ≤ p.nesting → blockWith inner decls p =
            .fail ⟨.nestingTooDeep maxNesting, p.inBlock.position⟩ p.advanced := by
        intro p decls hOpen hFull
        rw [blockWith, bind_of_ok (if_pos hOpen)]
        exact bind_of_fail (if_pos hFull) _
      rw [hDeep ids hOpen hFull, hDeep ids' hOpen' (by rwa [hpq.nesting])]
      exact .fail fun he => by rw [hIn.position_eq he]
  · have hFail : ∀ {p : Parser} (decls : List NodeId), p.kind ≠ .symbol .openCurly →
        blockWith inner decls p =
          .fail (p.complaint s!"expected {TokenKind.name (.symbol .openCurly)}") p :=
      fun decls h => bind_of_fail (if_neg h) _
    rw [hFail ids hOpen, hFail ids' (by rwa [hpq.kind_eq])]
    exact .fail fun he => hpq.complaint_eq he _

end Blocks

theorem sim_blockAt_zero (ids ids' : List NodeId) (links : Links) :
    Sim P (P.Abreast none True ((ids, ids') :: links)) (blockAt 0 ids) (blockAt 0 ids')
      fun a b => P.Abreast none False (([a], [b]) :: links) := by
  intro p q hpq
  by_cases hOpen : p.kind = .symbol .openCurly
  · have hDeep : ∀ {p : Parser} (decls : List NodeId), p.kind = .symbol .openCurly →
        blockAt 0 decls p = .fail ⟨.nestingTooDeep maxNesting, p.inBlock.position⟩ p.advanced := by
      intro p decls h
      rw [blockAt, expectSymbol, bind_bind, bind_of_ok (if_pos h)]
      rfl
    rw [hDeep ids hOpen, hDeep ids' (hpq.kind_eq.trans hOpen)]
    exact .fail fun he => by rw [(hpq.inBlock hOpen).position_eq he]
  · have hFail : ∀ {p : Parser} (decls : List NodeId), p.kind ≠ .symbol .openCurly →
        blockAt 0 decls p =
          .fail (p.complaint s!"expected {TokenKind.name (.symbol .openCurly)}") p :=
      fun decls h => bind_of_fail (bind_of_fail (if_neg h) _) _
    rw [hFail ids hOpen, hFail ids' (by rwa [hpq.kind_eq])]
    exact .fail fun he => hpq.complaint_eq he _

/-- Where the next tokens may differ, the blocks further in than the one that the parsers started
in come to their ends side by side. -/
def BridgesAll (P : Twin) : Prop :=
  ∀ levels depth : Nat, P.leftOuter.length < depth →
    Bridges P ⟨exprAt levels, blockAt levels⟩ (fun p => p.kind = .symbol .closeCurly) depth 0

theorem simInner_of_bridges (hBridges : BridgesAll P) (levels : Nat) :
    SimInner P ⟨exprAt levels, blockAt levels⟩ := by
  induction levels with
  | zero => exact ⟨sim_exprAt P 0, sim_blockAt_zero⟩
  | succ levels ih =>
    exact ⟨sim_exprAt P (levels + 1), sim_blockWith ih (hBridges levels)⟩

end StageScript.Twin

import StageScript.Proofs.Twin.Expr

/-!
# Statements side by side

Parsers that are side by side before a statement are so after it.  There the next tokens may
differ, and they do not matter: the statement has ended, unless a word follows that goes on with
it, and then it goes on with it on both sides.
-/

set_option synthInstance.maxSize 4000

namespace StageScript.Twin

open Parse

variable {P : Twin} {σ : Option Nat} {clear : Prop} {links : Links} {p q : Parser} {inner : Inner}

structure SimInner (P : Twin) (inner : Inner) : Prop where
  expr : SimExpr P inner.expr
  block : ∀ (ids ids' : List NodeId) (links : Links),
    Sim P (P.Abreast none True ((ids, ids') :: links)) (inner.block ids) (inner.block ids')
      fun a b => P.Abreast none False (([a], [b]) :: links)

theorem SimInner.bare (h : SimInner P inner) (links : Links) :
    Sim P (P.Abreast none True links) (inner.block []) (inner.block [])
      fun a b => P.Abreast none False (([a], [b]) :: links) :=
  (h.block [] [] links).strengthen fun _ _ h => h.nil

theorem SimInner.item (h : SimInner P inner) (power : Power) (links : Links) :
    Sim P (P.Abreast none True links) (inner.expr power) (inner.expr power)
      fun a b => P.Abreast none True (([a], [b]) :: links) :=
  h.expr power none links (Option.some_ne_none 0).symm

def SimStmt (P : Twin) (stmt : Parse NodeId) : Prop :=
  ∀ links, Sim P (fun p q => P.Abreast none True links p q ∧ p.kind.Passes none none) stmt stmt
    fun a b => P.Abreast none False (([a], [b]) :: links)

def SimDefinition (P : Twin) (stmt : Parse Unit) : Prop :=
  ∀ links, Sim P (fun p q => P.Abreast none True links p q ∧ p.kind.Passes none none) stmt stmt
    fun _ _ => P.Abreast none False links

/-! ### Declarations and plain words -/

theorem sim_param : SimItem P param := by
  intro σ links _
  refine (sim_eat ⟨rfl, rfl⟩).bind fun _ _ => .pull fun _ => ?_
  refine (sim_expectName _).bind fun token token' => .pull fun hToken => ?_
  subst hToken
  exact sim_push [] (fun _ _ => .definition (.same rfl))

theorem sim_params : Sim P (P.Abreast none True links) params params
    fun as bs => P.Abreast none True ((as, bs) :: links) := by
  have hOpen : (TokenKind.symbol .openParen).Passes none none := ⟨rfl, rfl⟩
  refine .ifEat hOpen ?_ (.pure fun _ _ h => h.nil)
  exact sim_commaList sim_param (Option.some_ne_none 0).symm ⟨rfl, rfl⟩ links

theorem sim_entryRoutine (h : SimInner P inner) : SimDefinition P (entryRoutine inner) := by
  intro links
  refine .first fun first => (h.bare _).bind fun body body' => ?_
  exact sim_declareFrom [([body], [body'])] (fun _ hρ => .entryRoutine hρ.one)

theorem sim_header : Sim P (fun p q => P.Abreast none True links p q ∧ p.kind.turn = 0 ∧
    p.kind.parens none = none) header header
      fun a b => P.Abreast none False (([a], [b]) :: links) := by
  exact .last fun token => sim_push [] (fun _ _ => .same rfl rfl rfl)

theorem sim_localBlock (h : SimInner P inner) : SimStmt P (localBlock inner) := by
  intro links
  refine .first fun first => (h.bare _).bind fun body body' => ?_
  exact sim_pushFrom [([body], [body'])] (fun _ hρ => .localBlock hρ.one)

theorem sim_returnStmt (h : SimInner P inner) : SimStmt P (returnStmt inner) := by
  intro links
  have hEnd : (TokenKind.symbol .semicolon).parens none = none := rfl
  refine .first fun first => .ifEnds rfl hEnd ?_ ?_
  · exact sim_pushFrom [] (fun _ _ => .same rfl rfl rfl)
  · refine (h.item _ _).bind fun value value' => sim_semicolon.bind fun _ _ => ?_
    exact sim_pushFrom [([value], [value'])] (fun _ hρ => .returnValue hρ.one)

theorem sim_wordStmt {kind : NodeKind} (hc : kind.children = []) (he : kind.entries = [])
    (hd : kind.isDefinition = false) : SimStmt P (wordStmt kind) := by
  intro links
  refine .first fun first => sim_semicolon.bind fun _ _ => ?_
  exact sim_pushFrom [] (fun _ _ => .same hc he hd)

theorem sim_nop : Sim P (fun p q => P.Abreast none True links p q ∧ p.kind.turn = 0 ∧
    p.kind.parens none = none) nop nop fun a b => P.Abreast none False (([a], [b]) :: links) :=
  .last fun _ => sim_push [] (fun _ _ => .same rfl rfl rfl)

section Blocks

variable [∀ decls, Parse.Runs Onward (inner.block decls)]

theorem sim_callableDef (h : SimInner P inner) : SimDefinition P (callableDef inner) := by
  intro links
  refine .first fun first => (sim_expectName _).bind fun token token' => ?_
  refine .pull fun hToken => sim_params.bind fun ids ids' => ?_
  subst hToken
  dsimp only
  split
  · refine (sim_push [] (fun _ _ => .definition (.same rfl))).bind fun r r' => ?_
    refine ((h.block (ids ++ [r]) (ids' ++ [r']) ((ids, ids') :: links)).strengthen ?_).bind ?_
    · exact fun p q h => h.relink fun ρ hρ => .cons (List.rel_append hρ.tail.list hρ.list) hρ.tail
    · exact fun body body' => sim_declareFrom [([body], [body']), (ids, ids')]
        (fun _ hρ => .func hρ.tail.list hρ.one)
  · refine ((h.block ids ids' ((ids, ids') :: links)).strengthen ?_).bind ?_
    · exact fun p q h => h.relink fun ρ hρ => .cons hρ.list hρ
    · exact fun body body' => sim_declareFrom [([body], [body']), (ids, ids')]
        (fun _ hρ => .task hρ.tail.list hρ.one)

theorem sim_subDef (h : SimInner P inner) : SimDefinition P (subDef inner) := by
  intro links
  refine .first fun first => (sim_expectName _).bind fun token token' => ?_
  refine .pull fun hToken => (h.bare _).bind fun body body' => ?_
  subst hToken
  exact sim_declareFrom [([body], [body'])] (fun _ hρ => .sub hρ.one)

end Blocks

section Exprs

variable [∀ power, Parse.Runs Onward (inner.expr power)]

theorem sim_condition (h : SimInner P inner) (links : Links) :
    Sim P (P.Abreast none True links) (condition inner) (condition inner)
      fun a b => P.Abreast none True (([a], [b]) :: links) := by
  refine (sim_expectSymbol ⟨rfl, rfl⟩).bind fun _ _ => (h.item _ _).bind fun cond cond' => ?_
  exact (sim_expectSymbol ⟨rfl, rfl⟩).bind fun _ _ => .pure fun _ _ h => h

theorem sim_varDecl (h : SimInner P inner) : SimStmt P (varDecl inner) := by
  intro links
  refine .first fun first => (sim_expectName _).bind fun token token' => ?_
  refine .pull fun hToken => ?_
  subst hToken
  refine (sim_declare [] (fun _ _ => .same rfl) rfl fun _ => rfl).bind fun id id' => ?_
  refine .ifEat ⟨rfl, rfl⟩ ?_ ?_
  · refine (h.item _ _).bind fun rhs rhs' => sim_semicolon.bind fun _ _ => ?_
    exact sim_pushFrom [([rhs], [rhs']), ([id], [id'])] (fun _ hρ => .varInit hρ.one)
  · exact sim_semicolon.bind fun _ _ => .pure fun _ _ h => h

/-! ### Assignments and calls -/

theorem sim_indices {expr : ExprParser} [∀ power, Parse.Runs Onward (expr power)]
    (h : SimExpr P expr) (n m : Nat) (links : Links) :
    Sim P (fun p q => P.Abreast none True links p q ∧ P.rounds p.pos q.pos n m)
      (indices expr n) (indices expr m) fun as bs => P.Abreast none True ((as, bs) :: links) := by
  apply Sim.of_round n m links
  · exact fun _ _ _ hpq => .ok hpq.nil
  · rintro n m ih links p q ⟨hpq, hRounds⟩
    refine hpq.ifEat ⟨rfl, rfl⟩ (fun hNext => ?_) (.ok hpq.nil)
    have hPast : Past (p.pos + 1) (q.pos + 1) (P.Abreast none True links) p.advanced q.advanced :=
      ⟨hNext, Nat.le_refl _, Nat.le_refl _⟩
    have hIndex := h .lowest none links (Option.some_ne_none 0).symm
    refine (hIndex.past _ _ _ _ hPast).bind fun id id' => ?_
    refine ((sim_expectSymbol ⟨rfl, rfl⟩).past _ _).bind fun _ _ => ?_
    rintro p' q' ⟨hMid, hLeft, hRight⟩
    have hRest := P.rounds_succ hRounds hLeft hRight hMid.meets
    exact (ih _ p' q' ⟨hMid, hRest⟩).bind fun as bs p q h => .ok h.cons

theorem passes_of_assignOp {kind : TokenKind} {op : AssignOp}
    (h : AssignOp.ofKind? kind = some op) : kind.Passes none none := by
  have hKind : kind = .symbol op.symbol := by simpa using List.find?_some h
  rw [hKind]
  cases op <;> exact ⟨rfl, rfl⟩

/-- What the operators do with the targets. -/
theorem sim_update {expr : ExprParser} [∀ power, Parse.Runs Onward (expr power)]
    (h : SimExpr P expr) {lhs lhs' : NodeId} {token : Token} :
    Sim P (fun p q => token.kind.Passes none none →
        P.Abreast none True (([lhs], [lhs']) :: links) p q)
      (update expr lhs token) (update expr lhs' token)
      fun k k' p q => ∃ new : Links, (∀ ρ, new.Hold ρ → k.Alike P.exact ρ k') ∧
        P.Abreast none True (new ++ links) p q := by
  unfold update
  split
  · rename_i hKind
    rw [hKind]
    exact .pure fun p q h => ⟨[([lhs], [lhs'])], fun _ hρ => .succ hρ.one, h ⟨rfl, rfl⟩⟩
  · rename_i hKind
    rw [hKind]
    exact .pure fun p q h => ⟨[([lhs], [lhs'])], fun _ hρ => .pred hρ.one, h ⟨rfl, rfl⟩⟩
  · split
    · rename_i op hOp
      refine ((h _ none _ (Option.some_ne_none 0).symm).strengthen fun p q h =>
        h (passes_of_assignOp hOp)).bind fun rhs rhs' => .pure fun p q h => ?_
      exact ⟨[([rhs], [rhs']), ([lhs], [lhs'])], fun _ hρ => .assign hρ.tail.one hρ.one, h⟩
    · exact sim_fail fun _ => rfl

theorem sim_assignment (h : SimInner P inner) {start : Position} {name : String}
    {ids ids' : List NodeId} :
    Sim P (P.Abreast none True ((ids, ids') :: links))
      (do
        let lhs ← pushFrom start (.target name ids)
        let operator ← advance
        let kind ← update inner.expr lhs operator
        expectSymbol .semicolon
        pushFrom start kind)
      (do
        let lhs ← pushFrom start (.target name ids')
        let operator ← advance
        let kind ← update inner.expr lhs operator
        expectSymbol .semicolon
        pushFrom start kind)
      fun a b => P.Abreast none False (([a], [b]) :: links) := by
  refine (sim_pushFrom [(ids, ids')] (fun _ hρ => .target hρ.list)).bind fun lhs lhs' => ?_
  intro p q hpq
  show Agree P _ ((update inner.expr lhs p.current >>= fun kind => _) p.advanced)
    ((update inner.expr lhs' q.current >>= fun kind => _) q.advanced)
  rw [hpq.token_eq]
  have hUpdate := sim_update h.expr p.advanced q.advanced fun hk => hpq.go hk
  refine hUpdate.bind fun k k' p' q' ⟨new, hAlike, hMid⟩ => ?_
  exact (sim_semicolon.bind fun _ _ => sim_pushFrom new hAlike) p' q' hMid

theorem sim_assignOrCall (h : SimInner P inner) : SimStmt P (assignOrCall inner) := by
  intro links
  refine .first fun token => .ifAt ?_ ?_
  · refine (h.expr.callArgs (Option.some_ne_none 0).symm _).bind fun args args' => ?_
    refine sim_semicolon.bind fun _ _ => ?_
    exact sim_pushFrom [(args, args')] (fun _ hρ => .callStmt hρ.list)
  · refine .rounds fun n m => (sim_indices h.expr n m _).bind fun ids ids' => ?_
    refine .knowing (fun p q h => h.isEmpty_eq) fun hEmpty => ?_
    dsimp only
    rw [hEmpty]
    split
    · have hEnd : (TokenKind.symbol .semicolon).parens none = none := rfl
      refine .ifEnds rfl hEnd ?_ (sim_assignment h)
      exact sim_pushFrom [(ids, ids')] (fun _ hρ => .callStmt .nil)
    · exact sim_assignment h

/-! ### Control -/

variable [∀ decls, Parse.Runs Onward (inner.block decls)]

theorem sim_elseBranches (h : SimInner P inner) (n m : Nat) (links : Links) :
    Sim P (fun p q => P.Abreast none False links p q ∧ P.rounds p.pos q.pos n m)
      (elseBranches inner n) (elseBranches inner m)
      fun a b => P.Abreast none False ((a.2.toList, b.2.toList) :: (a.1, b.1) :: links) := by
  apply Sim.of_round n m links
  · exact fun _ _ _ hpq => .ok hpq.nil.nil
  · rintro n m ih links p q ⟨hpq, hRounds⟩
    refine hpq.ifResumes rfl (fun hClear hKind => ?_) (.ok hpq.nil.nil)
    have hNext : P.Abreast none True links p.advanced q.advanced :=
      hClear.go (by rw [hKind]; exact ⟨rfl, rfl⟩)
    have hStart : q.position = p.position := hClear.start_eq
    refine hNext.ifEat ⟨rfl, rfl⟩ (fun hIf => ?_) ?_
    · have hPast : Past (p.pos + 1) (q.pos + 1) (P.Abreast none True links) p.advanced.advanced
          q.advanced.advanced := ⟨hIf, Nat.le_succ _, Nat.le_succ _⟩
      refine ((sim_condition h links).past _ _ _ _ hPast).bind fun cond cond' => ?_
      refine ((h.bare _).past _ _).bind fun body body' => ?_
      refine ((sim_pushFrom_of_eq [([body], [body']), ([cond], [cond'])]
        (fun _ hρ => .elseIf hρ.tail.one hρ.one) hStart).past _ _).bind fun branch branch' => ?_
      rintro p' q' ⟨hMid, hLeft, hRight⟩
      have hRest := P.rounds_succ hRounds hLeft hRight hMid.meets
      refine (ih _ p' q' ⟨hMid, hRest⟩).bind fun found found' p'' q'' h => .ok ?_
      exact h.relink fun ρ hρ => .cons hρ.list
        (.cons (.cons hρ.tail.tail.one hρ.tail.list) hρ.tail.tail.tail)
    · refine (h.bare links _ _ hNext).bind fun body body' p' q' h => .ok ?_
      exact h.relink fun ρ hρ => .cons hρ.list (.cons .nil hρ.tail)

theorem sim_ifElse (h : SimInner P inner) : SimStmt P (ifElse inner) := by
  intro links
  refine .first fun first => (sim_condition h _).bind fun cond cond' => ?_
  refine (h.bare _).bind fun body body' => .rounds fun n m => ?_
  refine (sim_elseBranches h n m _).bind fun found found' => ?_
  exact sim_pushFrom [(found.2.toList, found'.2.toList), (found.1, found'.1), ([body], [body']),
    ([cond], [cond'])]
    (fun _ hρ => .ifElse hρ.tail.tail.tail.one hρ.tail.tail.one hρ.tail.list hρ.list)

theorem sim_loop (h : SimInner P inner) : SimStmt P (loop inner) := by
  intro links
  refine .first fun first => .ifAt ?_ ?_
  · refine (sim_condition h _).bind fun count count' => (h.bare _).bind fun body body' => ?_
    exact sim_pushFrom [([body], [body']), ([count], [count'])]
      (fun _ hρ => .times hρ.tail.one hρ.one)
  · refine (h.bare _).bind fun body body' => ?_
    exact sim_pushFrom [([body], [body'])] (fun _ hρ => .loop hρ.one)

theorem sim_times (h : SimInner P inner) : SimStmt P (times inner) := by
  intro links
  refine .first fun first => (sim_condition h _).bind fun count count' => ?_
  refine (sim_eat ⟨rfl, rfl⟩).bind fun _ _ => .pull fun _ => (h.bare _).bind fun body body' => ?_
  exact sim_pushFrom [([body], [body']), ([count], [count'])]
    (fun _ hρ => .times hρ.tail.one hρ.one)

theorem sim_whileLoop (h : SimInner P inner) : SimStmt P (whileLoop inner) := by
  intro links
  refine .first fun first => (sim_condition h _).bind fun cond cond' => ?_
  refine (h.bare _).bind fun body body' => ?_
  exact sim_pushFrom [([body], [body']), ([cond], [cond'])]
    (fun _ hρ => .whileLoop hρ.tail.one hρ.one)

theorem sim_ascent (h : SimInner P inner) : SimStmt P (ascent inner) := by
  intro links
  have hOpen : (TokenKind.symbol .openParen).Passes none none := ⟨rfl, rfl⟩
  have hIn : (TokenKind.keyword .inWord).Passes none none := ⟨rfl, rfl⟩
  refine .first fun first => (sim_expectSymbol hOpen).bind fun _ _ => ?_
  refine (sim_eat ⟨rfl, rfl⟩).bind fun _ _ => .pull fun _ => ?_
  refine (sim_expectName _).bind fun token token' => .pull fun hToken => ?_
  subst hToken
  refine (sim_push [] (fun _ _ => .definition (.same rfl))).bind fun v v' => ?_
  refine (sim_expect hIn).bind fun _ _ => .pull fun _ => ?_
  intro p q hpq
  have hStart : q.position = p.position := hpq.start_eq
  refine ((h.item _ _).bind fun start start' => ?_ : Sim _ _ (_ >>= _) (_ >>= _) _) p q hpq
  refine (sim_expectSymbol ⟨rfl, rfl⟩).bind fun _ _ => (h.item _ _).bind fun stop stop' => ?_
  refine (sim_pushFrom_of_eq [([stop], [stop']), ([start], [start'])]
    (fun _ hρ => .range hρ.tail.one hρ.one) hStart).bind fun bounds bounds' => ?_
  refine (sim_expectSymbol ⟨rfl, rfl⟩).bind fun _ _ => ?_
  refine ((h.block [v] [v'] (([bounds], [bounds']) :: links)).strengthen ?_).bind
    fun body body' => ?_
  · exact fun p q h => h.relink fun ρ hρ => .cons hρ.tail.list (.cons hρ.list hρ.tail.tail)
  · refine sim_pushFrom [([body], [body']), ([bounds], [bounds'])] (fun _ hρ => ?_)
    split
    · exact .descent hρ.tail.one hρ.one
    · exact .ascent hρ.tail.one hρ.one

theorem sim_caseBranches (h : SimInner P inner) (n m : Nat) (links : Links) :
    Sim P (fun p q => P.Abreast none False links p q ∧ P.rounds p.pos q.pos n m)
      (caseBranches inner n) (caseBranches inner m)
      fun as bs => P.Abreast none False ((as, bs) :: links) := by
  apply Sim.of_round n m links
  · exact fun _ _ _ hpq => .ok hpq.nil
  · rintro n m ih links p q ⟨hpq, hRounds⟩
    refine hpq.ifResumes rfl (fun hClear hKind => ?_) (.ok hpq.nil)
    have hNext : P.Abreast none True links p.advanced q.advanced :=
      hClear.go (by rw [hKind]; exact ⟨rfl, rfl⟩)
    have hStart : q.position = p.position := hClear.start_eq
    have hPast : Past (p.pos + 1) (q.pos + 1) (P.Abreast none True links) p.advanced q.advanced :=
      ⟨hNext, Nat.le_refl _, Nat.le_refl _⟩
    have hArgs := h.expr.callArgs (Option.some_ne_none 0).symm links
    refine (hArgs.past _ _ _ _ hPast).bind fun values values' => ?_
    refine Sim.knowing (fun p q h => h.1.isEmpty_eq) fun hEmpty => ?_
    dsimp only
    rw [hEmpty]
    split
    · exact fun p q h => sim_unexpected _ p q h.1
    · refine ((h.bare _).past _ _).bind fun body body' => ?_
      refine ((sim_pushFrom_of_eq [([body], [body']), (values, values')]
        (fun _ hρ => .caseOf hρ.tail.list hρ.one) hStart).past _ _).bind fun branch branch' => ?_
      rintro p' q' ⟨hMid, hLeft, hRight⟩
      have hRest := P.rounds_succ hRounds hLeft hRight hMid.meets
      exact (ih _ p' q' ⟨hMid, hRest⟩).bind fun as bs p q h => .ok h.cons

theorem sim_alternative (h : SimInner P inner) (links : Links) :
    Sim P (fun p q => P.Abreast none True links p q ∧ p.kind.Passes none (some 0))
      (alternative inner) (alternative inner)
      fun a b => P.Abreast none False (([a], [b]) :: links) := by
  have hCondition : Sim P (P.Abreast (some 0) True links) (condition inner) (condition inner)
      fun a b => P.Abreast none False (([a], [b]) :: links) := by
    have hOpen : (TokenKind.symbol .openParen).Passes (some 0) (some 1) := ⟨rfl, rfl⟩
    refine (sim_expectSymbol hOpen).bind fun _ _ => ?_
    refine (h.expr _ _ _ (by decide)).bind fun cond cond' => ?_
    exact (sim_lastSymbol rfl rfl).bind fun _ _ => .pure fun _ _ h => h
  refine .first fun first => hCondition.bind fun cond cond' => ?_
  refine .rounds fun n m => (sim_caseBranches h n m _).bind fun branches branches' => ?_
  have hOthers : (TokenKind.keyword .othersWord).Passes none none := ⟨rfl, rfl⟩
  refine .eatResumes rfl hOthers ?_ ?_
  · refine (h.bare _).bind fun body body' => ?_
    exact sim_pushFrom [([body], [body']), (branches, branches'), ([cond], [cond'])]
      (fun _ hρ => .alternative hρ.tail.tail.one hρ.tail.list hρ.list)
  · exact sim_pushFrom [(branches, branches'), ([cond], [cond'])]
      (fun _ hρ => .alternative hρ.tail.one hρ.list .nil)

/-! ### Whole statements -/

/-- The parentheses of an alternative behind the first token of a statement. -/
def formParens : Form → Option Nat
  | .alternative => some 0
  | _ => none

theorem turn_of_form {kind : TokenKind} {form : Form} (h : Form.ofKind? kind = some form) :
    kind.turn = 0 ∧ kind.parens none = formParens form := by
  unfold Form.ofKind? at h
  split at h <;> cases h <;> exact ⟨rfl, rfl⟩

theorem passes_of_form {kind : TokenKind} {form : Form} (h : Form.ofKind? kind = some form)
    (hHeader : form ≠ .header) (hNop : form ≠ .nop) : kind.Passes none (formParens form) := by
  unfold Form.ofKind? at h
  split at h <;> cases h <;> first | exact ⟨rfl, rfl⟩ | contradiction

theorem Abreast.form?_eq (h : P.Abreast σ True links p q) : q.form? q.kind = p.form? p.kind := by
  rw [Parser.form?, Parser.form?, h.kind_eq, h.grammar]

theorem ofKind?_of_form? {form : Form} (h : p.form? p.kind = some form) :
    Form.ofKind? p.kind = some form := by
  rw [Parser.form?] at h
  split at h
  · exact h
  · cases h

/-- A statement that gives a node. -/
theorem Sim.given {pre : Parser → Parser → Prop} {left right : Parse NodeId}
    (h : Sim P pre left right fun a b => P.Abreast none False (([a], [b]) :: links)) :
    Sim P pre (some <$> left) (some <$> right)
      fun a b => P.Abreast none False ((a.toList, b.toList) :: links) :=
  h.map fun _ _ _ _ h => h

/-- A statement that gives no node. -/
theorem Sim.ungiven {pre : Parser → Parser → Prop} {left right : Parse Unit}
    (h : Sim P pre left right fun _ _ => P.Abreast none False links) :
    Sim P pre ((fun _ => none) <$> left) ((fun _ => none) <$> right)
      fun (a b : Option NodeId) => P.Abreast none False ((a.toList, b.toList) :: links) :=
  h.map fun _ _ _ _ h => h.nil

theorem sim_form (h : SimInner P inner) (kind : Form) :
    Sim P (fun p q => P.Abreast none True links p q ∧ Form.ofKind? p.kind = some kind)
      (form inner kind) (form inner kind)
      fun a b => P.Abreast none False ((a.toList, b.toList) :: links) := by
  have hPasses : kind ≠ .header → kind ≠ .nop → ∀ p q : Parser,
      P.Abreast none True links p q ∧ Form.ofKind? p.kind = some kind →
        P.Abreast none True links p q ∧ p.kind.Passes none (formParens kind) :=
    fun hHeader hNop p q hpq => ⟨hpq.1, passes_of_form hpq.2 hHeader hNop⟩
  have hTurn : ∀ p q : Parser, P.Abreast none True links p q ∧ Form.ofKind? p.kind = some kind →
      P.Abreast none True links p q ∧ p.kind.turn = 0 ∧ p.kind.parens none = formParens kind :=
    fun p q hpq => ⟨hpq.1, turn_of_form hpq.2⟩
  cases kind with
  | varDecl => exact ((sim_varDecl h links).strengthen (hPasses (by decide) (by decide))).given
  | callableDef =>
    exact ((sim_callableDef h links).strengthen (hPasses (by decide) (by decide))).ungiven
  | subDef => exact ((sim_subDef h links).strengthen (hPasses (by decide) (by decide))).ungiven
  | entryRoutine =>
    exact ((sim_entryRoutine h links).strengthen (hPasses (by decide) (by decide))).ungiven
  | header => exact (sim_header.strengthen hTurn).given
  | ifElse => exact ((sim_ifElse h links).strengthen (hPasses (by decide) (by decide))).given
  | loop => exact ((sim_loop h links).strengthen (hPasses (by decide) (by decide))).given
  | times => exact ((sim_times h links).strengthen (hPasses (by decide) (by decide))).given
  | whileLoop => exact ((sim_whileLoop h links).strengthen (hPasses (by decide) (by decide))).given
  | ascent => exact ((sim_ascent h links).strengthen (hPasses (by decide) (by decide))).given
  | alternative =>
    exact ((sim_alternative h links).strengthen (hPasses (by decide) (by decide))).given
  | localBlock =>
    exact ((sim_localBlock h links).strengthen (hPasses (by decide) (by decide))).given
  | returnStmt =>
    exact ((sim_returnStmt h links).strengthen (hPasses (by decide) (by decide))).given
  | yieldStmt =>
    exact ((sim_wordStmt rfl rfl rfl links).strengthen (hPasses (by decide) (by decide))).given
  | breakStmt =>
    exact ((sim_wordStmt rfl rfl rfl links).strengthen (hPasses (by decide) (by decide))).given
  | assignOrCall =>
    exact ((sim_assignOrCall h links).strengthen (hPasses (by decide) (by decide))).given
  | nop => exact (sim_nop.strengthen hTurn).given

theorem sim_stmtWith (h : SimInner P inner) (links : Links) :
    Sim P (P.Abreast none True links) (stmtWith inner) (stmtWith inner)
      fun a b => P.Abreast none False ((a.toList, b.toList) :: links) := by
  refine .look (fun _ _ h => h.form?_eq) fun found => ?_
  cases found with
  | none => exact (sim_unexpected _).strengthen fun _ _ h => h.1
  | some kind => exact (sim_form h kind).strengthen fun p q hpq => ⟨hpq.1, ofKind?_of_form? hpq.2⟩

end Exprs

end StageScript.Twin

import StageScript.Proofs.Parse.Sites

/-!
# Faults of parsing

The rules of the grammar go on or fail as `Sites` says.  Two of them ask what the next token is
and then rely on it: a literal has a value, since the patterns of literals only take texts that
denote something, and an operator that binds an operand has a meaning.  So a script that cannot be
parsed is at fault in one of the ways that are told to its author.
-/

set_option synthInstance.maxSize 4000

namespace StageScript

/-- The literals among the tokens have values. -/
class Legible (ts : Array Token) : Prop where
  denotes : ∀ token ∈ ts, token.kind = .number ∨ token.kind = .char ∨ token.kind = .string →
    ∃ e, Denotes token e

namespace Parse

/-! ### Expressions -/

section Expressions

variable {ts : Array Token} {file : String} {Γ : Prop} (expr : ExprParser)
  [∀ Γ power, Keeps ts file Γ (expr power)] {p : Parser}

instance keeps_pushBinary (op : BinaryOp) (left right : NodeId) :
    Keeps ts file Γ (pushBinary op left right) := by
  unfold pushBinary
  infer_instance

instance keeps_pushAfter (left right : NodeId) (kind : NodeKind)
    [Known Γ (Fair.fair ts file kind)] : Keeps ts file Γ (pushAfter left right kind) := by
  unfold pushAfter
  infer_instance

instance keeps_arrayLiteral : Keeps ts file Γ (arrayLiteral expr) := by
  unfold arrayLiteral
  infer_instance

instance keeps_group : Keeps ts file Γ (group expr) := by
  unfold group
  infer_instance

instance keeps_absolute : Keeps ts file Γ (absolute expr) := by
  unfold absolute
  infer_instance

instance keeps_sign : Keeps ts file Γ (sign expr) := by
  unfold sign
  infer_instance

instance keeps_exponent (left : NodeId) : Keeps ts file Γ (exponent expr left) := by
  unfold exponent
  infer_instance

instance keeps_index (left : NodeId) : Keeps ts file Γ (index expr left) := by
  unfold index
  infer_instance

/-- A literal has a value, so it is no fault. -/
theorem goes_literal [hl : Legible ts] (hp : p.Sited ts file)
    (hk : p.kind = .number ∨ p.kind = .char ∨ p.kind = .string) : Goes ts file p literal p := by
  obtain ⟨e, hDenotes⟩ := hl.denotes p.current hp.mem_tokens hk
  obtain ⟨kind, hKind, -⟩ := literalKind_of_denotes hDenotes
  have hQuiet : kind.isRuled = false := by
    cases hDenotes with
    | num hk hv =>
      rw [literalKind, hk] at hKind
      simp only [hv] at hKind
      cases hKind
      rfl
    | char hk hv =>
      rw [literalKind, hk] at hKind
      simp only [hv] at hKind
      cases hKind
      rfl
    | str hk =>
      rw [literalKind, hk] at hKind
      cases hKind
      rfl
  have hRun : literal p = push kind p.current.span p.advanced := by
    refine (bind_of_ok rfl _).trans ?_
    rw [hKind]
  refine .of_ok (hRun.trans rfl) ((Steady.advance p).trans (.push hQuiet ?_)) trivial
  exact Or.inl ⟨p.current, hp.mem_tokens, rfl⟩

/-- A node that the checks speak of, at the token that it starts with. -/
theorem Goes.open {q : Parser} {kind : NodeKind} (hp : p.Sited ts file) (hOpener : p.kind.Opener)
    (h : Steady ts file p.advanced q) : Goes ts file p (pushFrom p.position kind) q :=
  .of_ok rfl (h.opens hp hOpener rfl) trivial

theorem goes_name (hp : p.Sited ts file) (hk : p.kind = .identifier) :
    Goes ts file p (name expr) p := by
  have hOpener : p.kind.Opener := Or.inl hk
  have hFirst : p.advanced.Sited ts file := hp.of_steady (.advance p)
  refine Goes.first (Goes.look ?_)
  by_cases hOpen : p.advanced.kind = .symbol .openParen
  · rw [if_pos (decide_eq_true hOpen)]
    refine .along hFirst (.refl _) fun args r hr _ => ?_
    exact .open hp hOpener hr
  · rw [if_neg (by simpa using hOpen)]
    exact .of_ok rfl ((Steady.refl _).opens hp hOpener rfl) trivial

theorem goes_binary {left : NodeId} {power tighter : Power} (hp : p.Sited ts file)
    (hk : Operator.ofKind? p.kind = some (.binary, tighter)) :
    Goes ts file p (binary expr left power) p := by
  refine Goes.first ?_
  rcases Operator.ofKind?_cases hk with ⟨-, s, op, hMem, hs⟩ | ⟨h, -⟩ | ⟨h, -⟩
  · have hOp : BinaryOp.ofKind? p.current.kind = some op := by
      rw [show p.current.kind = .symbol s from hs]
      exact (Operator.ofKind?_of_mem hMem).2
    simp only [hOp]
    have hRest : Keeps ts file True (expr power >>= pushBinary op left) := inferInstance
    exact (hRest.goes trivial _ (hp.of_steady (.advance p))).after (.advance p)
  · cases h
  · cases h

instance keeps_extend (power : Power) (n : Nat) (left : NodeId) :
    Keeps ts file Γ (extend expr power n left) := by
  refine ⟨fun _ p hp => ?_⟩
  induction n generalizing left p with
  | zero => exact .of_ok rfl (.refl p) trivial
  | succ n ih =>
    rw [extend_succ]
    refine Goes.look ?_
    have hTail : p.operator? p.kind = Operator.ofKind? p.kind := if_pos hp.proper.grammar
    cases hk : p.operator? p.kind with
    | none => exact .of_ok rfl (.refl p) trivial
    | some found =>
      obtain ⟨kind, tighter⟩ := found
      rw [extendBy]
      split
      · exact .of_ok rfl (.refl p) trivial
      · have hGoes : Goes ts file p (tail expr left tighter kind) p := by
          cases kind with
          | binary => exact goes_binary expr hp (hTail.symm.trans hk)
          | exponent => exact (keeps_exponent expr left).goes trivial p hp
          | index => exact (keeps_index expr left).goes trivial p hp
        refine hGoes.bind fun more q _ hq _ => ?_
        exact (ih more q (hp.of_steady hq)).after hq

theorem goes_head [Legible ts] {kind : Head} (hp : p.Sited ts file)
    (hk : Head.ofKind? p.kind = some kind) :
    Goes ts file p (head expr kind) p := by
  have hCases := Head.ofKind?_cases hk
  cases kind with
  | literal => exact goes_literal hp hCases
  | name => exact goes_name expr hp hCases
  | array => exact (keeps_arrayLiteral expr).goes trivial p hp
  | group => exact (keeps_group expr).goes trivial p hp
  | absolute => exact (keeps_absolute expr).goes trivial p hp
  | sign => exact (keeps_sign expr).goes trivial p hp

instance keeps_exprWith [Legible ts] (power : Power) : Keeps ts file Γ (exprWith expr power) := by
  refine ⟨fun _ p hp => Goes.look ?_⟩
  have hHead : p.head? p.kind = Head.ofKind? p.kind := if_pos hp.proper.grammar
  cases hk : p.head? p.kind with
  | none => exact (keeps_unexpected .expression).goes trivial p hp
  | some kind =>
    refine (goes_head expr hp (hHead.symm.trans hk)).bind fun left q _ hq _ => ?_
    have hRest : Keeps ts file True (do extend expr power (← look Parser.rounds) left) :=
      inferInstance
    exact (hRest.goes trivial q (hp.of_steady hq)).after hq

end Expressions

instance keeps_exprAt {ts : Array Token} {file : String} [Legible ts] (Γ : Prop) (levels : Nat)
    (power : Power) : Keeps ts file Γ (exprAt levels power) := by
  induction levels generalizing power Γ with
  | zero => exact keeps_tooDeep
  | succ levels ih => exact keeps_nested _

/-! ### Statements -/

section Statements

variable {ts : Array Token} {file : String} {Γ : Prop} (inner : Inner)
  [∀ Γ power, Keeps ts file Γ (inner.expr power)] {p : Parser}

instance keeps_condition : Keeps ts file Γ (condition inner) := by
  unfold condition
  infer_instance

instance keeps_param : Keeps ts file Γ param := by
  unfold param
  infer_instance

instance keeps_params : Keeps ts file Γ params := by
  unfold params
  infer_instance

instance keeps_indices (expr : ExprParser) [∀ Γ power, Keeps ts file Γ (expr power)] (n : Nat) :
    Keeps ts file Γ (indices expr n) := by
  induction n generalizing Γ with
  | zero => exact keeps_pure []
  | succ n ih =>
    unfold indices
    infer_instance

instance keeps_update (expr : ExprParser) [∀ Γ power, Keeps ts file Γ (expr power)] (lhs : NodeId)
    (operator : Token) [h : Known Γ (Fair.fair ts file operator)] :
    Keeps ts file Γ (update expr lhs operator) := by
  have hFault : Known Γ (Fair.fair ts file (⟨.unexpectedBecause operator.value
      "expected assignment or call", operator.span.start⟩ : Diagnostic)) :=
    ⟨fun hk => .unwanted (h.imp hk) .update⟩
  unfold update
  split
  · infer_instance
  · infer_instance
  · split <;> infer_instance

/-- A target is the node that its name opens, and the assignment stands around it. -/
theorem goes_assign {ids : List NodeId} {q : Parser} (hp : p.Sited ts file)
    (hOpener : p.kind.Opener) (hq : Steady ts file p.advanced q) :
    Goes ts file p (do
      let lhs ← pushFrom p.current.span.start (.target p.current.value ids)
      let operator ← advance
      let kind ← update inner.expr lhs operator
      expectSymbol .semicolon
      pushFrom p.current.span.start kind) q := by
  refine (Goes.open hp hOpener hq).bind fun lhs u _ hu _ => ?_
  have hStart : Known True (Fair.fair ts file p.current.span.start) := ⟨fun _ => hp.position⟩
  have hRest : Keeps ts file True (do
      let operator ← advance
      let kind ← update inner.expr lhs operator
      expectSymbol .semicolon
      pushFrom p.current.span.start kind) := inferInstance
  exact (hRest.goes trivial u (hp.of_steady hu)).after hu

theorem goes_assignOrCall (hp : p.Sited ts file) (hk : p.kind = .identifier) :
    Goes ts file p (assignOrCall inner) p := by
  have hOpener : p.kind.Opener := Or.inl hk
  have hFirst : p.advanced.Sited ts file := hp.of_steady (.advance p)
  refine Goes.first (Goes.look ?_)
  by_cases hOpen : p.advanced.kind = .symbol .openParen
  · rw [if_pos (decide_eq_true hOpen)]
    refine .along hFirst (.refl _) fun args r hr _ => ?_
    refine .along hFirst hr fun _ s hs _ => ?_
    exact .open hp hOpener hs
  · rw [if_neg (by simpa using hOpen)]
    refine Goes.look ?_
    refine .along hFirst (.refl _) fun ids r hr _ => ?_
    dsimp only
    split
    · refine .along hFirst hr fun called s hs _ => ?_
      split
      · exact .open hp hOpener hs
      · exact goes_assign inner hp hOpener hs
    · exact goes_assign inner hp hOpener hr

/-- A return or a break is opened by its word. -/
theorem goes_returnStmt (hp : p.Sited ts file) (hk : p.kind = .keyword .returnWord) :
    Goes ts file p (returnStmt inner) p := by
  have hOpener : p.kind.Opener := Or.inr (Or.inl hk)
  have hFirst : p.advanced.Sited ts file := hp.of_steady (.advance p)
  refine Goes.first (.along hFirst (.refl _) fun ended r hr _ => ?_)
  split
  · exact .open hp hOpener hr
  · refine .along hFirst hr fun value s hs _ => ?_
    refine .along hFirst hs fun _ u hu _ => ?_
    exact .open hp hOpener hu

theorem goes_breakStmt (hp : p.Sited ts file) (hk : p.kind = .keyword .breakWord) :
    Goes ts file p (wordStmt .breakLoop) p := by
  have hFirst : p.advanced.Sited ts file := hp.of_steady (.advance p)
  refine Goes.first (.along hFirst (.refl _) fun _ r hr _ => ?_)
  exact .open hp (Or.inr (Or.inr hk)) hr

variable [∀ Γ decls, Keeps ts file Γ (inner.block decls)]

instance keeps_ascent : Keeps ts file Γ (ascent inner) := by
  have hKind : ∀ (first : Token) (bounds body : NodeId) (Γ : Prop),
      Known Γ (Fair.fair ts file (if first.kind = .keyword .descentWord
        then NodeKind.descent bounds body else NodeKind.ascent bounds body)) := by
    intro first bounds body Γ
    split <;> infer_instance
  unfold ascent
  infer_instance

instance keeps_elseBranches (n : Nat) : Keeps ts file Γ (elseBranches inner n) := by
  induction n generalizing Γ with
  | zero => exact keeps_pure _
  | succ n ih =>
    unfold elseBranches
    infer_instance

instance keeps_caseBranches (n : Nat) : Keeps ts file Γ (caseBranches inner n) := by
  induction n generalizing Γ with
  | zero => exact keeps_pure _
  | succ n ih =>
    unfold caseBranches
    dsimp only
    infer_instance

theorem Form.ofKind?_openers {kind : TokenKind} {form : Form} (h : Form.ofKind? kind = some form) :
    (form = .returnStmt → kind = .keyword .returnWord) ∧
      (form = .breakStmt → kind = .keyword .breakWord) ∧
      (form = .assignOrCall → kind = .identifier) := by
  cases kind with
  | keyword k => cases k <;> cases h <;> simp
  | symbol s =>
    cases s <;> cases h
    simp
  | _ => cases h <;> simp

theorem goes_form {kind : Form} (hp : p.Sited ts file) (hk : Form.ofKind? p.kind = some kind) :
    Goes ts file p (form inner kind) p := by
  have hKeeps : ∀ step : Parse (Option NodeId), Keeps ts file True step → Goes ts file p step p :=
    fun step hs => hs.goes trivial p hp
  have hNode : ∀ step : Parse NodeId, Goes ts file p step p → Goes ts file p (some <$> step) p :=
    fun step hs => hs.bind fun _ _ _ hq _ => .of_ok rfl hq trivial
  cases kind <;> unfold form
  case varDecl => unfold varDecl; exact hKeeps _ inferInstance
  case callableDef => unfold callableDef; exact hKeeps _ inferInstance
  case subDef => unfold subDef; exact hKeeps _ inferInstance
  case entryRoutine => unfold entryRoutine; exact hKeeps _ inferInstance
  case header => unfold header; exact hKeeps _ inferInstance
  case ifElse => unfold ifElse; exact hKeeps _ inferInstance
  case loop => unfold loop; exact hKeeps _ inferInstance
  case times => unfold times; exact hKeeps _ inferInstance
  case whileLoop => unfold whileLoop; exact hKeeps _ inferInstance
  case ascent => exact hKeeps _ inferInstance
  case alternative => unfold alternative; exact hKeeps _ inferInstance
  case localBlock => unfold localBlock; exact hKeeps _ inferInstance
  case returnStmt => exact hNode _ (goes_returnStmt inner hp ((Form.ofKind?_openers hk).1 rfl))
  case yieldStmt => unfold wordStmt; exact hKeeps _ inferInstance
  case breakStmt => exact hNode _ (goes_breakStmt hp ((Form.ofKind?_openers hk).2.1 rfl))
  case assignOrCall => exact hNode _ (goes_assignOrCall inner hp ((Form.ofKind?_openers hk).2.2 rfl))
  case nop => unfold nop; exact hKeeps _ inferInstance

instance keeps_stmtWith : Keeps ts file Γ (stmtWith inner) := by
  refine ⟨fun _ p hp => Goes.look ?_⟩
  have hForm : p.form? p.kind = Form.ofKind? p.kind := if_pos hp.proper.grammar
  cases hk : p.form? p.kind with
  | none => exact (keeps_unexpected .statement).goes trivial p hp
  | some kind => exact goes_form inner hp (hForm.symm.trans hk)

instance keeps_stmts (stop : Parser → Bool) (n : Nat) :
    Keeps ts file Γ (stmts inner stop n) := by
  induction n generalizing Γ with
  | zero => exact keeps_pure []
  | succ n ih =>
    unfold stmts
    infer_instance

instance keeps_blockWith (decls : List NodeId) : Keeps ts file Γ (blockWith inner decls) := by
  have hDecls : ∀ Γ, Keeps ts file Γ (decls.forM fun id => do let _ ← declareExisting id) :=
    fun Γ => keeps_forM (fun _ => inferInstance) decls
  unfold blockWith
  infer_instance

end Statements

section Script

variable {ts : Array Token} {file : String} [Legible ts] {Γ : Prop}

instance keeps_blockAt (Γ : Prop) (levels : Nat) (decls : List NodeId) :
    Keeps ts file Γ (blockAt levels decls) := by
  induction levels generalizing decls Γ with
  | zero =>
    unfold blockAt
    infer_instance
  | succ levels ih => exact keeps_blockWith ⟨exprAt levels, blockAt levels⟩ decls

instance keeps_here {α : Type} [Fair α] (rule : Inner → Parse α)
    [h : ∀ levels, Keeps ts file Γ (rule ⟨exprAt levels, blockAt levels⟩)] :
    Keeps ts file Γ (here rule) :=
  ⟨fun hk p hp => ⟨((h _).goes hk p hp).ok, ((h _).goes hk p hp).fail⟩⟩

instance keeps_script (host : Host) : Keeps ts file Γ (script host) := by
  have hRoot : ∀ (root : NodeId) (Γ : Prop),
      Keeps ts file Γ (change fun p => { p with tree := { p.tree with root } }) :=
    fun root Γ => keeps_change (fun _ => rfl) (fun _ => rfl) (fun _ => rfl) (fun _ => rfl)
      fun _ => rfl
  have hHost : ∀ (origin : Position) (Γ : Prop) [Known Γ (Fair.fair ts file origin)],
      Keeps ts file Γ (host.definitions.forM fun d => do
        let _ ← declare d ⟨origin, origin⟩) :=
    fun origin Γ _ => keeps_forM (fun _ => inferInstance) host.definitions
  unfold script
  infer_instance

end Script

end Parse

/-! ### Sources -/

section Source

variable {source file name : String} {host : Host} {tokens : List Token}

theorem legible_of_tokenize (h : tokenize source file = .ok tokens) : Legible tokens.toArray :=
  ⟨fun _ hToken hk => exists_denotes_of_mem_tokenize h (List.mem_toArray.mp hToken) hk⟩

theorem Parser.Sited.start (h : tokenize source file = .ok tokens) (name : String) :
    (Parser.start tokens name true).Sited tokens.toArray name := by
  refine ⟨rfl, rfl, .of_tokenize h rfl rfl, fun hNode => ?_⟩
  cases hNode

theorem Parse.goes_script (h : tokenize source file = .ok tokens) (name : String) (host : Host) :
    Goes tokens.toArray name (Parser.start tokens name true) (script host)
      (Parser.start tokens name true) :=
  have := legible_of_tokenize h
  (keeps_script host).goes trivial _ (.start h name)

/-- The fault of a source that cannot be parsed. -/
theorem parse_fault (hTokens : tokenize source file = .ok tokens) {d : Diagnostic}
    (hParse : parse tokens name host = .error d) : Fault tokens.toArray name d := by
  rw [parse] at hParse
  split at hParse
  · cases hParse
  · cases hParse
    exact (Parse.goes_script hTokens name host).fail ‹_›

/-- Where the nodes of a source start. -/
theorem parse_steady (hTokens : tokenize source file = .ok tokens) {tree : Tree}
    (hParse : parse tokens name host = .ok tree) :
    ∃ q : Parser, q.tree = tree ∧
      Steady tokens.toArray name (Parser.start tokens name true) q := by
  rw [parse] at hParse
  split at hParse
  · cases hParse
    exact ⟨_, rfl, ((Parse.goes_script hTokens name host).ok ‹_›).1⟩
  · cases hParse

theorem Wanted.ne_empty {reason : String} (h : Wanted reason) :
    reason ≠ "empty character literal" := by
  have hSecond : reason.toList[1]? = some 'x' := by
    cases h <;> simp [toString]
  rintro rfl
  cases hSecond

theorem Wanted.ne_operator {reason : String} (h : Wanted reason) :
    reason ≠ "expected an operator" := by
  cases h with
  | kind kind =>
    cases kind with
    | symbol s => cases s <;> decide
    | keyword k => cases k <;> decide
    | _ => decide
  | name context =>
    intro hEq
    have hChar := congrArg (fun s => s.toList[9]?) hEq
    simp [toString] at hChar
  | _ => decide

/-- A token that binds tighter than something else is an operator. -/
theorem Parser.exists_tail?_of_power (p : Parser) (power : Power) (h : power.rank < p.power.rank) :
    ∃ tail, p.tail? p.kind = some tail ∧
      (tail = .binary → ∃ op, BinaryOp.ofKind? p.kind = some op) := by
  rcases p.operator?_cases with ⟨tail, hOperator, hTail⟩ | ⟨-, hPower, -⟩
  · refine ⟨tail, hTail, ?_⟩
    rintro rfl
    rw [Parser.operator?] at hOperator
    split at hOperator
    · rcases Operator.ofKind?_cases hOperator with ⟨-, s, op, hMem, hk⟩ | ⟨h, -⟩ | ⟨h, -⟩
      · rw [hk]
        exact ⟨op, (Operator.ofKind?_of_mem hMem).2⟩
      · cases h
      · cases h
    · cases hOperator
  · rw [hPower] at h
    exact absurd h (Nat.not_lt_zero _)

/-- Tokens that were read from a source are refused in three ways only: one of them stands where
another one is wanted, or opens one level too many, or a name is declared twice in a block.  No
number and no character is without value, and no token binds tighter than its surroundings without
being an operator to go on with. -/
theorem parse_refuses (hTokens : tokenize source file = .ok tokens) {d : Diagnostic}
    (hParse : parse tokens name host = .error d) :
    ((∃ token ∈ tokens, ∃ reason, Wanted reason ∧ reason ≠ "empty character literal" ∧
        reason ≠ "expected an operator" ∧
        d = ⟨.unexpectedBecause token.value reason, token.span.start⟩) ∨
      d.cause = .nestingTooDeep maxNesting ∨ ∃ declared, d.cause = .alreadyDeclared declared) ∧
    (∀ text, d.cause ≠ .unexpected text) ∧ (∀ text, d.cause ≠ .badNumber text) ∧
    ∀ (p : Parser) (power : Power), power.rank < p.power.rank →
      ∃ tail, p.tail? p.kind = some tail ∧
        (tail = .binary → ∃ op, BinaryOp.ofKind? p.kind = some op) := by
  have hOperator := Parser.exists_tail?_of_power
  cases parse_fault hTokens hParse with
  | fatal hFatal =>
    rw [parse_not_fatal hParse] at hFatal
    cases hFatal
  | unwanted hToken hWanted =>
    refine ⟨Or.inl ⟨_, List.mem_toArray.mp hToken, _, hWanted, hWanted.ne_empty,
      hWanted.ne_operator, rfl⟩, ?_, ?_, hOperator⟩ <;> exact fun _ h => by cases h
  | tooDeep =>
    refine ⟨Or.inr (Or.inl rfl), ?_, ?_, hOperator⟩ <;> exact fun _ h => by cases h
  | declared =>
    refine ⟨Or.inr (Or.inr ⟨_, rfl⟩), ?_, ?_, hOperator⟩ <;> exact fun _ h => by cases h

/-- Literals that have no operator between them. -/
theorem parse_refuses_literals : ∃ tokens d,
    tokenize "let x = 1 '\\n';" "a" = .ok tokens ∧ parse tokens "a" Host.empty = .error d ∧
    d = ⟨.unexpectedBecause "\n" "expected Semicolon", ⟨10, "a"⟩⟩ ∧
    ∃ token ∈ tokens, ∃ reason, Wanted reason ∧ reason ≠ "empty character literal" ∧
      reason ≠ "expected an operator" ∧
      d = ⟨.unexpectedBecause token.value reason, token.span.start⟩ := by
  have hRead : (tokenize "let x = 1 '\\n';" "a").toBool = true := by
    cbv
  have hRun : (do
      let tokens ← tokenize "let x = 1 '\\n';" "a"
      parse tokens "a" Host.empty) =
        .error ⟨.unexpectedBecause "\n" "expected Semicolon", ⟨10, "a"⟩⟩ := by
    cbv
  cases hTokens : tokenize "let x = 1 '\\n';" "a" with
  | error d =>
    rw [hTokens] at hRead
    cases hRead
  | ok tokens =>
    rw [hTokens] at hRun
    refine ⟨tokens, _, rfl, hRun, rfl, ?_⟩
    rcases (parse_refuses hTokens hRun).1 with h | h | ⟨declared, h⟩
    · exact h
    · cases h
    · cases h

end Source

end StageScript

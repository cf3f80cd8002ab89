import StageScript.Proofs.Parse.Script

/-!
# What nodes are composed of

Two facts about parsed trees that do not follow from their shape (`Tree.Composed`): the parts
of an expression are expressions, and every variable of a block is introduced by a statement
of the block, either by itself or by the statement that gives it its first value.

`Builds base stmts exprs s` says how far a parser has come: the store grew from `base` to
`s`, the statements `stmts` introduce the variables declared on the way, and `exprs` are
expressions.  Each rule of the grammar is judged by what it adds to these lists;
`parse_composed` is the result for whole scripts.
-/

namespace StageScript

def NodeKind.isExpr : NodeKind → Bool
  | num _ => true
  | char _ => true
  | str _ => true
  | array _ => true
  | unary _ _ => true
  | binary _ _ _ => true
  | ref _ => true
  | call _ _ => true
  | element _ _ => true
  | range _ _ => true
  | slice _ _ => true
  | _ => false

namespace Tree

def IsExpr (t : Tree) (id : NodeId) : Prop := ∃ k, t.kind? id = some k ∧ k.isExpr = true

/-- If the definition `d` is a variable, it is one of the statements or one of them gives it
its first value. -/
def Introduced (t : Tree) (stmts : List NodeId) (d : NodeId) : Prop :=
  ∃ k, t.kind? d = some k ∧ ∀ name, k = .definition (.var name) →
    d ∈ stmts ∨ ∃ s ∈ stmts, ∃ rhs, t.kind? s = some (.varInit name rhs)

/-- Expressions are made of expressions, and variables are introduced in their block. -/
structure Composed (t : Tree) : Prop where
  part : ∀ id k, t.kind? id = some k → k.isExpr = true → ∀ c ∈ k.children, t.IsExpr c
  shown : ∀ id stmts table, t.kind? id = some (.block stmts table) →
    ∀ e ∈ table.entries, t.Introduced stmts e.2

theorem IsExpr.mono {t u : Tree} (h : t.Extends u) {id : NodeId} (hid : t.IsExpr id) :
    u.IsExpr id := by
  obtain ⟨k, hk, he⟩ := hid
  exact ⟨k, h.kind? hk, he⟩

namespace Introduced

variable {t u : Tree} {stmts more : List NodeId} {d : NodeId}

theorem mono (h : t.Extends u) (hd : t.Introduced stmts d) : u.Introduced stmts d := by
  obtain ⟨k, hk, hVar⟩ := hd
  refine ⟨k, h.kind? hk, fun name hName => ?_⟩
  rcases hVar name hName with hm | ⟨s, hs, rhs, hInit⟩
  · exact Or.inl hm
  · exact Or.inr ⟨s, hs, rhs, h.kind? hInit⟩

theorem subset (h : t.Introduced stmts d) (hs : ∀ s ∈ stmts, s ∈ more) : t.Introduced more d := by
  obtain ⟨k, hk, hVar⟩ := h
  refine ⟨k, hk, fun name hName => ?_⟩
  rcases hVar name hName with hm | ⟨s, hm, hInit⟩
  · exact Or.inl (hs d hm)
  · exact Or.inr ⟨s, hs s hm, hInit⟩

theorem of_not_variable {e : Definition} (hk : t.kind? d = some (.definition e))
    (hv : e.isVariable = false) : t.Introduced stmts d := by
  refine ⟨_, hk, fun name hName => ?_⟩
  cases hName
  cases hv

/-- The statement that gives a variable its first value can stand for the variable. -/
theorem replace {id init rhs : NodeId} {name : String} (h : t.Introduced (stmts ++ [id]) d)
    (hid : t.kind? id = some (.definition (.var name)))
    (hInit : t.kind? init = some (.varInit name rhs)) : t.Introduced (stmts ++ [init]) d := by
  obtain ⟨k, hk, hVar⟩ := h
  refine ⟨k, hk, fun other hOther => ?_⟩
  have hLast : init ∈ stmts ++ [init] := by simp
  rcases hVar other hOther with hm | ⟨s, hm, more, hs⟩
  · rcases List.mem_append.mp hm with hm | hm
    · exact Or.inl (List.mem_append_left _ hm)
    · rw [List.mem_singleton.mp hm, hid] at hk
      cases hk
      cases hOther
      exact Or.inr ⟨init, hLast, rhs, hInit⟩
  · rcases List.mem_append.mp hm with hm | hm
    · exact Or.inr ⟨s, List.mem_append_left _ hm, more, hs⟩
    · rw [List.mem_singleton.mp hm, hid] at hs
      cases hs

end Introduced

theorem Composed.push {t : Tree} (h : t.Composed) (node : Node)
    (hExpr : node.kind.isExpr = true → ∀ c ∈ node.kind.children, t.IsExpr c)
    (hBlock : ∀ stmts table, node.kind = .block stmts table →
      ∀ e ∈ table.entries, t.Introduced stmts e.2) : (t.push node).Composed := by
  have hExt : t.Extends (t.push node) := .push _ _
  constructor
  · intro id k hk he c hc
    by_cases hid : id = t.size
    · rw [hid, kind?_push_size] at hk
      cases hk
      exact (hExpr he c hc).mono hExt
    · rw [kind?_push_of_ne hid] at hk
      exact (h.part id k hk he c hc).mono hExt
  · intro id stmts table hk e he
    by_cases hid : id = t.size
    · rw [hid, kind?_push_size] at hk
      exact (hBlock stmts table (Option.some.inj hk) e he).mono hExt
    · rw [kind?_push_of_ne hid] at hk
      exact (h.shown id stmts table hk e he).mono hExt

end Tree

namespace Parse

/-- From `base` to `s` nodes were added and names declared in the innermost open block.  The
statements `stmts` introduce the variables among them, and `exprs` are expressions. -/
structure Builds (base : Store) (stmts exprs : List NodeId) (s : Store) : Prop where
  tree : base.tree.Extends s.tree
  outer : s.outer = base.outer
  table : ∃ new, s.table.entries = base.table.entries ++ new ∧
    ∀ e ∈ new, s.tree.Introduced stmts e.2
  exprs : ∀ e ∈ exprs, s.tree.IsExpr e
  composed : s.tree.Composed

namespace Builds

variable {base s : Store} {stmts exprs : List NodeId}

theorem refl (h : s.tree.Composed) : Builds s [] [] s :=
  ⟨.refl _, rfl, ⟨[], by simp⟩, by simp, h⟩

theorem trans {u : Store} {more others : List NodeId} (h : Builds base stmts exprs s)
    (g : Builds s more others u) : Builds base (stmts ++ more) (exprs ++ others) u := by
  obtain ⟨old, hOld, ho⟩ := h.table
  obtain ⟨new, hNew, hn⟩ := g.table
  refine ⟨h.tree.trans g.tree, g.outer.trans h.outer, ⟨old ++ new, ?_, ?_⟩, ?_, g.composed⟩
  · rw [hNew, hOld, List.append_assoc]
  · intro e he
    rcases List.mem_append.mp he with he | he
    · exact ((ho e he).mono g.tree).subset fun _ hm => List.mem_append_left _ hm
    · exact (hn e he).subset fun _ hm => List.mem_append_right _ hm
  · intro e he
    rcases List.mem_append.mp he with he | he
    · exact (h.exprs e he).mono g.tree
    · exact g.exprs e he

theorem forget (h : Builds base stmts exprs s) {fewer : List NodeId}
    (hf : ∀ e ∈ fewer, e ∈ exprs) : Builds base stmts fewer s :=
  { h with exprs := fun e he => h.exprs e (hf e he) }

theorem more (h : Builds base stmts exprs s) (ids : List NodeId) :
    Builds base (stmts ++ ids) exprs s := by
  obtain ⟨new, hNew, hn⟩ := h.table
  exact { h with
    table := ⟨new, hNew, fun e he => (hn e he).subset fun _ hm => List.mem_append_left _ hm⟩ }

theorem push (h : Builds base stmts exprs s) (node : Node)
    (hExpr : node.kind.isExpr = true → ∀ c ∈ node.kind.children, c ∈ exprs)
    (hBlock : ∀ ids table, node.kind = .block ids table →
      ∀ e ∈ table.entries, s.tree.Introduced ids e.2) :
    Builds base stmts exprs (s.push node) := by
  have hExt : s.tree.Extends (s.tree.push node) := .push _ _
  obtain ⟨new, hNew, hn⟩ := h.table
  exact ⟨h.tree.trans hExt, h.outer, ⟨new, hNew, fun e he => (hn e he).mono hExt⟩,
    fun e he => (h.exprs e he).mono hExt,
    h.composed.push node (fun hk c hc => h.exprs c (hExpr hk c hc)) hBlock⟩

/-- A name is declared for a definition that is introduced. -/
theorem declare (h : Builds base stmts exprs s) {name : String} {id : NodeId} {table : NameTable}
    (hid : s.tree.Introduced stmts id) (ht : s.table.declare? name id = some table) :
    Builds base stmts exprs { s with table } := by
  have hTable : table = s.table.insert name id := by
    rw [NameTable.declare?] at ht
    split at ht
    · cases ht
    · exact (Option.some.inj ht).symm
  obtain ⟨new, hNew, hn⟩ := h.table
  refine ⟨h.tree, h.outer, ⟨new ++ [(name, id)], ?_, ?_⟩, h.exprs, h.composed⟩
  · rw [hTable, NameTable.insert, hNew, List.append_assoc]
  · intro e he
    rcases List.mem_append.mp he with he | he
    · exact hn e he
    · rw [List.mem_singleton.mp he]
      exact hid

end Builds

/-! ### Steps -/

def BuildsExpr (step : Parse NodeId) : Prop :=
  ∀ base stmts exprs,
    Triple (Builds base stmts exprs) step fun id => Builds base stmts (exprs ++ [id])

def BuildsOn {α : Type} (step : Parse α) : Prop :=
  ∀ base stmts exprs, Triple (Builds base stmts exprs) step fun _ => Builds base stmts exprs

def BuildsBlock (block : List NodeId → Parse NodeId) : Prop :=
  ∀ decls base stmts exprs, Triple (fun s => Builds base stmts exprs s ∧ Given s decls)
    (block decls) fun _ => Builds base stmts exprs

section Steps

variable {base : Store} {stmts exprs all : List NodeId} {k : NodeKind}

theorem BuildsExpr.on {step : Parse NodeId} (h : BuildsExpr step) : BuildsOn step :=
  fun base stmts exprs => (h base stmts exprs).weaken fun _ _ hs =>
    hs.forget fun _ he => List.mem_append_left _ he

/-- An expression is made of expressions. -/
theorem push_expr (span : Span) (hk : k.isExpr = true) (hParts : ∀ c ∈ k.children, c ∈ all)
    (hAll : ∀ e ∈ exprs, e ∈ all) :
    Triple (Builds base stmts all) (push k span) fun id => Builds base stmts (exprs ++ [id]) := by
  intro p hp
  have hPush : Builds base stmts all (p.store.push ⟨k, span⟩) := by
    refine hp.push _ (fun _ => hParts) ?_
    rintro ids table rfl
    cases hk
  refine { hPush with exprs := fun e he => ?_ }
  rcases List.mem_append.mp he with he | he
  · exact hPush.exprs e (hAll e he)
  · rw [List.mem_singleton.mp he]
    exact ⟨k, Tree.kind?_push_size _ _, hk⟩

theorem pushFrom_expr (start : Position) (hk : k.isExpr = true)
    (hParts : ∀ c ∈ k.children, c ∈ all) (hAll : ∀ e ∈ exprs, e ∈ all) :
    Triple (Builds base stmts all) (pushFrom start k)
      fun id => Builds base stmts (exprs ++ [id]) :=
  (reads_look _).bind fun span => push_expr span hk hParts hAll

/-- Any other node than a block may be made of anything. -/
theorem push_on (span : Span) (hk : k.isExpr = false) (hb : ∀ ids table, k ≠ .block ids table) :
    Triple (Builds base stmts exprs) (push k span) fun id s =>
      Builds base stmts exprs s ∧ s.tree.kind? id = some k := by
  intro p hp
  refine ⟨hp.push ⟨k, span⟩ ?_ fun ids table he => absurd he (hb ids table),
    Tree.kind?_push_size _ _⟩
  intro he
  rw [hk] at he
  cases he

theorem pushFrom_on (start : Position) (hk : k.isExpr = false)
    (hb : ∀ ids table, k ≠ .block ids table) : BuildsOn (pushFrom start k) :=
  fun _ _ _ => (reads_look _).bind fun span => (push_on span hk hb).weaken fun _ _ hs => hs.1

theorem bindName_on {name : String} {id : NodeId} (position : Position) :
    Triple (fun s => Builds base stmts exprs s ∧ s.tree.Introduced stmts id)
      (bindName name id position) fun _ => Builds base stmts exprs := by
  rintro p ⟨hp, hid⟩
  rw [bindName]
  split
  · rename_i table ht
    exact hp.declare hid ht
  · rfl

/-- What is declared is no variable. -/
theorem declare_on {d : Definition} (hd : d.isVariable = false) (span : Span) :
    BuildsOn (declare d span) := by
  intro base stmts exprs
  refine (push_on span rfl (by simp)).bind fun id => ?_
  exact (bindName_on _).strengthen fun s hs => ⟨hs.1, .of_not_variable hs.2 hd⟩

/-- A declared variable introduces itself. -/
theorem declare_var (name : String) (span : Span) :
    Triple (Builds base stmts exprs) (declare (.var name) span) fun id s =>
      Builds base (stmts ++ [id]) exprs s ∧ s.tree.kind? id = some (.definition (.var name)) := by
  refine (push_on span rfl (by simp)).bind fun id => ?_
  rintro p ⟨hp, hk⟩
  have hid : p.tree.Introduced (stmts ++ [id]) id := ⟨_, hk, fun _ _ => Or.inl (by simp)⟩
  rw [bindName]
  split
  · rename_i table ht
    exact ⟨(hp.more [id]).declare hid ht, hk⟩
  · rfl

end Steps

/-! ### Expressions -/

section Expressions

variable {expr : ExprParser}

theorem builds_commaList (close : Symbol) {item : Parse NodeId} (h : BuildsExpr item)
    (base : Store) (stmts exprs : List NodeId) :
    Triple (Builds base stmts exprs) (commaList close item)
      fun ids => Builds base stmts (exprs ++ ids) :=
  Triple.commaList close (fun done => h base stmts done) exprs

theorem builds_callArgs (h : ∀ power, BuildsExpr (expr power)) (base : Store)
    (stmts exprs : List NodeId) :
    Triple (Builds base stmts exprs) (callArgs expr)
      fun ids => Builds base stmts (exprs ++ ids) :=
  (reads_expectSymbol _).bind fun _ => builds_commaList _ (h _) _ _ _

theorem literalKind_isExpr {token : Token} {k : NodeKind} (h : literalKind token = .ok k) :
    k.isExpr = true := by
  rw [literalKind] at h
  split at h <;> try split at h
  all_goals cases h <;> rfl

theorem buildsExpr_literal : BuildsExpr literal := by
  intro base stmts exprs
  refine reads_advance.bind fun token => ?_
  cases h : literalKind token with
  | ok k =>
    have hParts : k.children = [] := (literalKind_ok h).2.2
    exact push_expr _ (literalKind_isExpr h) (by simp [hParts]) fun _ he => he
  | error c => exact fun _ _ => literalKind_error h

theorem buildsExpr_name (h : ∀ power, BuildsExpr (expr power)) : BuildsExpr (name expr) := by
  intro base stmts exprs
  refine reads_advance.bind fun token => ?_
  refine (reads_atSymbol _).bind fun b => .ite (fun _ => ?_) fun _ => ?_
  · exact (builds_callArgs h _ _ _).bind fun args =>
      pushFrom_expr _ rfl (by simp_all [NodeKind.children]) (by simp_all)
  · exact push_expr _ rfl (by simp [NodeKind.children]) fun _ he => he

theorem buildsExpr_arrayLiteral (h : ∀ power, BuildsExpr (expr power)) :
    BuildsExpr (arrayLiteral expr) := by
  intro base stmts exprs
  refine reads_advance.bind fun token => ?_
  exact (builds_commaList _ (h _) _ _ _).bind fun elems =>
    pushFrom_expr _ rfl (by simp_all [NodeKind.children]) (by simp_all)

theorem buildsExpr_group (h : ∀ power, BuildsExpr (expr power)) : BuildsExpr (group expr) := by
  intro base stmts exprs
  refine reads_advance.bind fun _ => (h _ _ _ _).bind fun inner => ?_
  exact (reads_expectSymbol _).bind fun _ => .pure fun _ hs => hs

/-- The end of an expression with one operand. -/
theorem pushFrom_unary (start : Position) (op : UnaryOp) (operand : NodeId) {base : Store}
    {stmts exprs : List NodeId} :
    Triple (Builds base stmts (exprs ++ [operand])) (pushFrom start (.unary op operand))
      fun id => Builds base stmts (exprs ++ [id]) :=
  pushFrom_expr _ rfl (by simp [NodeKind.children]) (by simp_all)

theorem buildsExpr_absolute (h : ∀ power, BuildsExpr (expr power)) :
    BuildsExpr (absolute expr) := by
  intro base stmts exprs
  refine reads_advance.bind fun token => (h _ _ _ _).bind fun operand => ?_
  exact (reads_expectSymbol _).bind fun _ => pushFrom_unary _ _ _

theorem buildsExpr_sign (h : ∀ power, BuildsExpr (expr power)) : BuildsExpr (sign expr) := by
  intro base stmts exprs
  exact reads_advance.bind fun token => (h _ _ _ _).bind fun operand => pushFrom_unary _ _ _

theorem buildsExpr_head (h : ∀ power, BuildsExpr (expr power)) (kind : Head) :
    BuildsExpr (head expr kind) := by
  cases kind with
  | literal => exact buildsExpr_literal
  | name => exact buildsExpr_name h
  | array => exact buildsExpr_arrayLiteral h
  | group => exact buildsExpr_group h
  | absolute => exact buildsExpr_absolute h
  | sign => exact buildsExpr_sign h

def BuildsFrom (left : NodeId) (step : Parse NodeId) : Prop :=
  ∀ base stmts exprs, Triple (Builds base stmts (exprs ++ [left])) step
    fun id => Builds base stmts (exprs ++ [id])

theorem pushBinary_expr (op : BinaryOp) (left right : NodeId) {base : Store}
    {stmts exprs : List NodeId} :
    Triple (Builds base stmts (exprs ++ [left] ++ [right])) (pushBinary op left right)
      fun id => Builds base stmts (exprs ++ [id]) :=
  (reads_look _).bind fun span => push_expr span rfl (by simp [NodeKind.children]) (by simp_all)

theorem buildsFrom_binary (h : ∀ power, BuildsExpr (expr power)) (left : NodeId) (power : Power) :
    BuildsFrom left (binary expr left power) := by
  intro base stmts exprs
  refine reads_advance.bind fun token => ?_
  cases BinaryOp.ofKind? token.kind with
  | some op => exact (h _ _ _ _).bind fun right => pushBinary_expr op left right
  | none => exact fun _ _ => rfl

theorem buildsFrom_exponent (h : ∀ power, BuildsExpr (expr power)) (left : NodeId) :
    BuildsFrom left (exponent expr left) := by
  intro base stmts exprs
  exact reads_advance.bind fun _ => (h _ _ _ _).bind fun right => pushBinary_expr _ left right

theorem pushAfter_expr {k : NodeKind} (left right : NodeId) (hk : k.isExpr = true) {base : Store}
    {stmts exprs all : List NodeId} (hParts : ∀ c ∈ k.children, c ∈ all)
    (hAll : ∀ e ∈ exprs, e ∈ all) :
    Triple (Builds base stmts all) (pushAfter left right k)
      fun id => Builds base stmts (exprs ++ [id]) :=
  (reads_look _).bind fun _ => pushFrom_expr _ hk hParts hAll

theorem buildsFrom_index (h : ∀ power, BuildsExpr (expr power)) (left : NodeId) :
    BuildsFrom left (index expr left) := by
  intro base stmts exprs
  refine reads_advance.bind fun _ => (h _ _ _ _).bind fun start => ?_
  refine (reads_eat _).bind fun b => .ite (fun _ => ?_) fun _ => ?_
  · refine (h _ _ _ _).bind fun stop => (reads_look _).bind fun span => ?_
    have hRange : Triple (Builds base stmts (exprs ++ [left] ++ [start] ++ [stop]))
        (push (.range start stop) span) fun id => Builds base stmts (exprs ++ [left] ++ [id]) :=
      push_expr span rfl (by simp [NodeKind.children]) (by grind)
    refine hRange.bind fun bounds => (reads_expectSymbol _).bind fun _ => ?_
    exact pushAfter_expr left bounds rfl (by simp [NodeKind.children]) (by simp_all)
  · exact (reads_expectSymbol _).bind fun _ =>
      pushAfter_expr left start rfl (by simp [NodeKind.children]) (by simp_all)

theorem buildsFrom_tail (h : ∀ power, BuildsExpr (expr power)) (left : NodeId) (power : Power)
    (kind : Tail) : BuildsFrom left (tail expr left power kind) := by
  cases kind with
  | binary => exact buildsFrom_binary h left power
  | exponent => exact buildsFrom_exponent h left
  | index => exact buildsFrom_index h left

theorem buildsFrom_extend (h : ∀ power, BuildsExpr (expr power)) (power : Power) (n : Nat) :
    ∀ left, BuildsFrom left (extend expr power n left) := by
  induction n with
  | zero =>
    intro left base stmts exprs
    exact .pure fun s hs => hs
  | succ n ih =>
    intro left base stmts exprs
    rw [extend_succ]
    refine (reads_look _).bind fun found => ?_
    cases found with
    | none => exact .pure fun s hs => hs
    | some tighter =>
      refine .ite (fun _ => .pure fun s hs => hs) fun _ => ?_
      exact (buildsFrom_tail h left _ _ _ _ _).bind fun id => ih id _ _ _

theorem buildsExpr_exprAt (levels : Nat) : ∀ power, BuildsExpr (exprAt levels power) := by
  induction levels with
  | zero => exact fun _ _ _ _ _ _ => rfl
  | succ levels ih =>
    intro power base stmts exprs
    refine Triple.nested ((reads_look _).bind fun found => ?_)
    cases found with
    | none => exact fun _ _ => rfl
    | some kind =>
      refine (buildsExpr_head ih kind _ _ _).bind fun left => (reads_look _).bind fun n => ?_
      exact buildsFrom_extend ih power n left _ _ _

end Expressions

/-! ### Statements -/

structure Inner.Composes (inner : Inner) : Prop where
  expr : ∀ power, BuildsExpr (inner.expr power)
  block : BuildsBlock inner.block

def BuildsStmt (step : Parse (Option NodeId)) : Prop :=
  ∀ base stmts exprs, Triple (Builds base stmts exprs) step
    fun found => Builds base (stmts ++ found.toList) exprs

theorem BuildsOn.stmt {step : Parse NodeId} (h : BuildsOn step) : BuildsStmt (some <$> step) :=
  fun base stmts exprs => (h base stmts exprs).map fun id _ hs => hs.more [id]

theorem BuildsOn.none {step : Parse Unit} (h : BuildsOn step) :
    BuildsStmt ((fun _ => Option.none) <$> step) :=
  fun base stmts exprs => (h base stmts exprs).map fun _ _ hs => by simpa using hs

namespace Inner.Composes

variable {inner : Inner}

/-- A block that is given nothing. -/
theorem bare (h : inner.Composes) : BuildsOn (inner.block []) :=
  fun base stmts exprs => (h.block [] base stmts exprs).strengthen fun _ hs =>
    ⟨hs, by simp [Given]⟩

theorem condition (h : inner.Composes) : BuildsOn (condition inner) := by
  intro base stmts exprs
  refine (reads_expectSymbol _).bind fun _ => ((h.expr _).on _ _ _).bind fun cond => ?_
  exact (reads_expectSymbol _).bind fun _ => .pure fun _ hs => hs

/-- Expressions in parentheses that are parts of a statement. -/
theorem callArgs (h : inner.Composes) : BuildsOn (callArgs inner.expr) :=
  fun base stmts exprs => (builds_callArgs h.expr base stmts exprs).weaken fun _ _ hs =>
    hs.forget fun _ he => List.mem_append_left _ he

theorem varDecl (h : inner.Composes) : BuildsStmt (some <$> varDecl inner) := by
  intro base stmts exprs
  have hRule : Triple (Builds base stmts exprs) (Parse.varDecl inner)
      fun id => Builds base (stmts ++ [id]) exprs := by
    refine reads_advance.bind fun first => (reads_expectName _).bind fun token => ?_
    refine (declare_var token.value token.span).bind fun id => ?_
    refine (reads_eat _).bind fun b => .ite (fun _ => ?_) fun _ => ?_
    · rintro p ⟨hp, hid⟩
      -- Judged from the store with the variable, so that it stays known.
      have hInit : Triple (Builds p.store [] [])
          (do
            let rhs ← inner.expr .lowest
            expectSymbol .semicolon
            pushFrom first.span.start (.varInit token.value rhs))
          fun init s => Builds p.store [] [] s ∧
            ∃ rhs, s.tree.kind? init = some (.varInit token.value rhs) := by
        refine ((h.expr _).on _ _ _).bind fun rhs => (reads_expectSymbol _).bind fun _ => ?_
        refine (reads_look _).bind fun span => (push_on span rfl (by simp)).weaken ?_
        exact fun _ s hs => ⟨hs.1, rhs, hs.2⟩
      refine hInit.weaken ?_ p (.refl hp.composed)
      rintro init s ⟨hs, rhs, hk⟩
      have hAll : Builds base (stmts ++ [id]) exprs s := by simpa using hp.trans hs
      obtain ⟨new, hNew, hn⟩ := hAll.table
      exact { hAll with
        table := ⟨new, hNew, fun e he => (hn e he).replace (hs.tree.kind? hid) hk⟩ }
    · exact (reads_expectSymbol _).bind fun _ => .pure fun s hs => hs.1
  exact hRule.map fun id s hs => hs

end Inner.Composes

/-- A definition that is made to be given to a block. -/
theorem push_given {base : Store} {stmts exprs done : List NodeId} {d : Definition}
    (hd : d.isGiven = true) (span : Span) :
    Triple (fun s => Builds base stmts exprs s ∧ Given s done) (push (.definition d) span)
      fun id s => Builds base stmts exprs s ∧ Given s (done ++ [id]) := by
  rintro p ⟨hp, hDone⟩
  obtain ⟨hBuilds, hNew⟩ := push_on (k := .definition d) span rfl (by simp) p hp
  refine ⟨hBuilds, fun id hid => ?_⟩
  rcases List.mem_append.mp hid with hid | hid
  · obtain ⟨e, he, hGiven⟩ := hDone id hid
    exact ⟨e, (Tree.Extends.push _ _).kind? he, hGiven⟩
  · rw [List.mem_singleton.mp hid]
    exact ⟨d, hNew, hd⟩

theorem builds_params {base : Store} {stmts exprs : List NodeId} :
    Triple (Builds base stmts exprs) params
      fun ids s => Builds base stmts exprs s ∧ Given s ids := by
  have hParam : ∀ done, Triple (fun s => Builds base stmts exprs s ∧ Given s done) param
      fun id s => Builds base stmts exprs s ∧ Given s (done ++ [id]) :=
    fun _ => (reads_eat _).bind fun _ => (reads_expectName _).bind fun token =>
      push_given rfl token.span
  refine (reads_eat _).bind fun b => .ite (fun _ => ?_) fun _ => ?_
  · exact (Triple.commaList .closeParen hParam []).strengthen fun s hs => ⟨hs, by simp [Given]⟩
  · exact .pure fun s hs => ⟨hs, by simp [Given]⟩

namespace Inner.Composes

variable {inner : Inner}

/-- The end of the definition of a callable. -/
theorem declareFrom {d : Definition} (hd : d.isVariable = false) (start : Position) :
    BuildsOn (do let _ ← declare d (← look (·.spanFrom start))) :=
  fun _ _ _ => (reads_look _).bind fun span => (declare_on hd span _ _ _).bind fun _ =>
    .pure fun _ hs => hs

theorem callableDef (h : inner.Composes) : BuildsOn (callableDef inner) := by
  intro base stmts exprs
  refine reads_advance.bind fun first => (reads_expectName _).bind fun token => ?_
  refine builds_params.bind fun ids => .ite (fun _ => ?_) fun _ => ?_
  · refine (push_given rfl first.span).bind fun result => ?_
    exact (h.block _ _ _ _).bind fun body => declareFrom rfl _ _ _ _
  · exact (h.block _ _ _ _).bind fun body => declareFrom rfl _ _ _ _

theorem subDef (h : inner.Composes) : BuildsOn (subDef inner) := by
  intro base stmts exprs
  refine reads_advance.bind fun first => (reads_expectName _).bind fun token => ?_
  exact (h.bare _ _ _).bind fun body => declareFrom rfl _ _ _ _

theorem entryRoutine (h : inner.Composes) : BuildsOn (entryRoutine inner) := by
  intro base stmts exprs
  refine reads_advance.bind fun first => (h.bare _ _ _).bind fun body => ?_
  exact declareFrom rfl _ _ _ _

theorem elseBranches (h : inner.Composes) (n : Nat) : BuildsOn (elseBranches inner n) := by
  induction n with
  | zero => exact fun _ _ _ => .pure fun _ hs => hs
  | succ n ih =>
    intro base stmts exprs
    refine (reads_atKind _).bind fun b => .ite (fun _ => ?_) fun _ => .pure fun _ hs => hs
    refine reads_advance.bind fun first => (reads_eat _).bind fun b => ?_
    refine .ite (fun _ => ?_) fun _ => ?_
    · refine (h.condition _ _ _).bind fun cond => (h.bare _ _ _).bind fun body => ?_
      refine (pushFrom_on _ rfl (by simp) _ _ _).bind fun branch => ?_
      exact (ih _ _ _).bind fun rest => .pure fun _ hs => hs
    · exact (h.bare _ _ _).bind fun body => .pure fun _ hs => hs

theorem ifElse (h : inner.Composes) : BuildsOn (ifElse inner) := by
  intro base stmts exprs
  refine reads_advance.bind fun first => (h.condition _ _ _).bind fun cond => ?_
  refine (h.bare _ _ _).bind fun body => (reads_look _).bind fun n => ?_
  exact (h.elseBranches n _ _ _).bind fun found => pushFrom_on _ rfl (by simp) _ _ _

/-- A condition, a block, and a node of both. -/
theorem conditional (h : inner.Composes) {between : Parse Bool} (hRead : Reads between)
    {start : Position} {kind : NodeId → NodeId → NodeKind}
    (hk : ∀ cond body, (kind cond body).isExpr = false)
    (hb : ∀ cond body ids table, kind cond body ≠ .block ids table) :
    BuildsOn (do
      let cond ← Parse.condition inner
      let _ ← between
      let body ← inner.block []
      pushFrom start (kind cond body)) := by
  intro base stmts exprs
  refine (h.condition _ _ _).bind fun cond => hRead.bind fun _ => ?_
  exact (h.bare _ _ _).bind fun body => pushFrom_on _ (hk _ _) (hb _ _) _ _ _

theorem loop (h : inner.Composes) : BuildsOn (loop inner) := by
  intro base stmts exprs
  refine reads_advance.bind fun first => (reads_atSymbol _).bind fun b => ?_
  refine .ite (fun _ => ?_) fun _ => ?_
  · exact h.conditional (reads_pure false) (fun _ _ => rfl) (by simp) _ _ _
  · exact (h.bare _ _ _).bind fun body => pushFrom_on _ rfl (by simp) _ _ _

theorem times (h : inner.Composes) : BuildsOn (times inner) :=
  fun _ _ _ => reads_advance.bind fun _ =>
    h.conditional (reads_eat _) (fun _ _ => rfl) (by simp) _ _ _

theorem whileLoop (h : inner.Composes) : BuildsOn (whileLoop inner) :=
  fun _ _ _ => reads_advance.bind fun _ =>
    h.conditional (reads_pure false) (fun _ _ => rfl) (by simp) _ _ _

theorem ascent (h : inner.Composes) : BuildsOn (ascent inner) := by
  intro base stmts exprs
  refine reads_advance.bind fun first => (reads_expectSymbol _).bind fun _ => ?_
  refine (reads_eat _).bind fun _ => (reads_expectName _).bind fun token => ?_
  refine (push_on token.span rfl (by simp)).bind fun loopVar => ?_
  refine (reads_expect _).bind fun _ => (reads_look _).bind fun rangeStart => ?_
  rintro p ⟨hp, hk⟩
  -- Judged from the store with the loop variable, so that it stays known.
  have hRest : Triple (Builds p.store [] [])
      (do
        let start ← inner.expr .lowest
        expectSymbol .dots
        let stop ← inner.expr .lowest
        let bounds ← pushFrom rangeStart (.range start stop)
        expectSymbol .closeParen
        let body ← inner.block [loopVar]
        pushFrom first.span.start
          (if first.kind = .keyword .descentWord then .descent bounds body
            else .ascent bounds body))
      fun _ => Builds p.store [] [] := by
    refine (h.expr _ _ _ _).bind fun start => (reads_expectSymbol _).bind fun _ => ?_
    refine (h.expr _ _ _ _).bind fun stop => ?_
    have hRange : Triple (Builds p.store [] ([] ++ [start] ++ [stop]))
        (pushFrom rangeStart (.range start stop)) fun id => Builds p.store [] ([] ++ [id]) :=
      pushFrom_expr _ rfl (by simp [NodeKind.children]) (by simp)
    refine hRange.bind fun bounds => (reads_expectSymbol _).bind fun _ => ?_
    refine ((h.block [loopVar] p.store [] []).strengthen fun s hs => ⟨?_, ?_⟩).bind fun body => ?_
    · exact hs.forget (by simp)
    · intro id hid
      rw [List.mem_singleton.mp hid]
      exact ⟨_, hs.tree.kind? hk, rfl⟩
    · by_cases hDescent : first.kind = .keyword .descentWord
      · simp only [if_pos hDescent]
        exact pushFrom_on _ rfl (by simp) _ _ _
      · simp only [if_neg hDescent]
        exact pushFrom_on _ rfl (by simp) _ _ _
  refine hRest.weaken (fun _ s hs => ?_) p (.refl hp.composed)
  simpa using hp.trans hs

theorem caseBranches (h : inner.Composes) (n : Nat) : BuildsOn (caseBranches inner n) := by
  induction n with
  | zero => exact fun _ _ _ => .pure fun _ hs => hs
  | succ n ih =>
    intro base stmts exprs
    refine (reads_atKind _).bind fun b => .ite (fun _ => ?_) fun _ => .pure fun _ hs => hs
    refine reads_advance.bind fun first => (h.callArgs _ _ _).bind fun values => ?_
    refine .ite (fun _ => (reads_unexpected _).bind fun _ => ?_) fun _ => ?_
    all_goals
      refine (h.bare _ _ _).bind fun body => ?_
      refine (pushFrom_on _ rfl (by simp) _ _ _).bind fun branch => ?_
      exact (ih _ _ _).bind fun rest => .pure fun _ hs => hs

theorem alternative (h : inner.Composes) : BuildsOn (alternative inner) := by
  intro base stmts exprs
  refine reads_advance.bind fun first => (h.condition _ _ _).bind fun cond => ?_
  refine (reads_look _).bind fun n => (h.caseBranches n _ _ _).bind fun branches => ?_
  refine (reads_eat _).bind fun b => .ite (fun _ => ?_) fun _ => ?_
  · exact (h.bare _ _ _).bind fun body => pushFrom_on _ rfl (by simp) _ _ _
  · exact pushFrom_on _ rfl (by simp) _ _ _

theorem localBlock (h : inner.Composes) : BuildsOn (localBlock inner) :=
  fun _ _ _ => reads_advance.bind fun _ => (h.bare _ _ _).bind fun _ =>
    pushFrom_on _ rfl (by simp) _ _ _

theorem returnStmt (h : inner.Composes) : BuildsOn (returnStmt inner) := by
  intro base stmts exprs
  refine reads_advance.bind fun first => (reads_eat _).bind fun b => .ite (fun _ => ?_) fun _ => ?_
  · exact pushFrom_on _ rfl (by simp) _ _ _
  · refine ((h.expr _).on _ _ _).bind fun value => ?_
    exact (reads_expectSymbol _).bind fun _ => pushFrom_on _ rfl (by simp) _ _ _

theorem indices (h : inner.Composes) (n : Nat) : BuildsOn (indices inner.expr n) := by
  induction n with
  | zero => exact fun _ _ _ => .pure fun _ hs => hs
  | succ n ih =>
    intro base stmts exprs
    refine (reads_eat _).bind fun b => .ite (fun _ => ?_) fun _ => .pure fun _ hs => hs
    refine ((h.expr _).on _ _ _).bind fun id => (reads_expectSymbol _).bind fun _ => ?_
    exact (ih _ _ _).bind fun rest => .pure fun _ hs => hs

/-- The node that an operator makes of its target is no expression. -/
theorem update (h : inner.Composes) (lhs : NodeId) (operator : Token) {base : Store}
    {stmts exprs : List NodeId} :
    Triple (Builds base stmts exprs) (update inner.expr lhs operator) fun k s =>
      Builds base stmts exprs s ∧ k.isExpr = false ∧ ∀ ids table, k ≠ .block ids table := by
  rw [Parse.update]
  split
  · exact .pure fun s hs => ⟨hs, rfl, by simp⟩
  · exact .pure fun s hs => ⟨hs, rfl, by simp⟩
  · split
    · exact ((h.expr _).on _ _ _).bind fun rhs => .pure fun s hs => ⟨hs, rfl, by simp⟩
    · exact fun _ _ => rfl

/-- An assignment, after its target's name and indices. -/
theorem assignment (h : inner.Composes) (name : String) (ids : List NodeId) (start : Position) :
    BuildsOn (do
      let lhs ← pushFrom start (.target name ids)
      let operator ← advance
      let kind ← Parse.update inner.expr lhs operator
      expectSymbol .semicolon
      pushFrom start kind) := by
  intro base stmts exprs
  refine (pushFrom_on _ rfl (by simp) _ _ _).bind fun lhs => reads_advance.bind fun operator => ?_
  refine (h.update lhs operator).bind fun k => (reads_expectSymbol _).bind fun _ => ?_
  rintro p ⟨hp, hk, hb⟩
  exact pushFrom_on start hk hb base stmts exprs p hp

theorem assignOrCall (h : inner.Composes) : BuildsOn (assignOrCall inner) := by
  intro base stmts exprs
  refine reads_advance.bind fun token => (reads_atSymbol _).bind fun b => ?_
  refine .ite (fun _ => ?_) fun _ => ?_
  · refine (h.callArgs _ _ _).bind fun args => ?_
    exact (reads_expectSymbol _).bind fun _ => pushFrom_on _ rfl (by simp) _ _ _
  · refine (reads_look _).bind fun n => (h.indices n _ _ _).bind fun ids => ?_
    refine .ite (fun _ => ?_) fun _ => ?_
    · refine (reads_eat _).bind fun called => .ite (fun _ => ?_) fun _ => ?_
      · exact pushFrom_on _ rfl (by simp) _ _ _
      · exact h.assignment _ ids _ _ _ _
    · exact h.assignment token.value ids token.span.start _ _ _

theorem form (h : inner.Composes) (kind : Form) : BuildsStmt (form inner kind) := by
  have hWord : ∀ {k : NodeKind}, k.isExpr = false → (∀ ids table, k ≠ .block ids table) →
      BuildsOn (wordStmt k) := fun hk hb _ _ _ =>
    reads_advance.bind fun _ => (reads_expectSymbol _).bind fun _ => pushFrom_on _ hk hb _ _ _
  have hToken : ∀ {k : Token → NodeKind}, (∀ token, (k token).isExpr = false) →
      (∀ token ids table, k token ≠ .block ids table) →
      BuildsOn (do let token ← advance; push (k token) token.span) := fun hk hb _ _ _ =>
    reads_advance.bind fun _ => (push_on _ (hk _) (hb _)).weaken fun _ _ hs => hs.1
  cases kind with
  | varDecl => exact h.varDecl
  | callableDef => exact h.callableDef.none
  | subDef => exact h.subDef.none
  | entryRoutine => exact h.entryRoutine.none
  | header => exact (hToken (fun _ => rfl) (by simp [headerKind])).stmt
  | ifElse => exact h.ifElse.stmt
  | loop => exact h.loop.stmt
  | times => exact h.times.stmt
  | whileLoop => exact h.whileLoop.stmt
  | ascent => exact h.ascent.stmt
  | alternative => exact h.alternative.stmt
  | localBlock => exact h.localBlock.stmt
  | returnStmt => exact h.returnStmt.stmt
  | yieldStmt => exact (hWord rfl (by simp)).stmt
  | breakStmt => exact (hWord rfl (by simp)).stmt
  | assignOrCall => exact h.assignOrCall.stmt
  | nop => exact (hToken (fun _ => rfl) (by simp)).stmt

theorem stmts (h : inner.Composes) (stop : Parser → Bool) (n : Nat) (base : Store) :
    ∀ done exprs, Triple (Builds base done exprs) (stmts inner stop n)
      fun ids => Builds base (done ++ ids) exprs := by
  induction n with
  | zero => exact fun done exprs => .pure fun s hs => by simpa using hs
  | succ n ih =>
    intro done exprs
    refine (reads_look _).bind fun b => ?_
    refine .ite (fun _ => ?_) fun _ => .pure fun s hs => by simpa using hs
    have hStmt : BuildsStmt (stmtWith inner) := by
      intro base stmts exprs
      refine (reads_look _).bind fun found => ?_
      cases found with
      | none => exact fun _ _ => rfl
      | some kind => exact h.form kind _ _ _
    refine (hStmt _ _ _).bind fun found => (ih _ _).bind fun rest => .pure fun s hs => ?_
    simpa using hs

end Inner.Composes

/-! ### Blocks and scripts -/

theorem declareAll_builds {base : Store} (decls : List NodeId) :
    Triple (fun s => Builds base [] [] s ∧ Given s decls)
      (decls.forM fun id => do
        let _ ← declareExisting id)
      fun _ => Builds base [] [] := by
  induction decls with
  | nil => exact .pure fun s hs => hs.1
  | cons id decls ih =>
    have hFirst : Triple (fun s => Builds base [] [] s ∧ Given s (id :: decls))
        (declareExisting id) fun _ s => Builds base [] [] s ∧ Given s decls := by
      rintro p ⟨hp, hGiven⟩
      obtain ⟨d, hk, hd⟩ := hGiven id List.mem_cons_self
      have hv : d.isVariable = false := by
        cases d <;> simp_all [Definition.isGiven, Definition.isVariable]
      obtain ⟨position, hRun⟩ := declareExisting_eq (p := p) hk
      rw [hRun, bindName]
      split
      · rename_i table ht
        exact ⟨hp.declare (.of_not_variable hk hv) ht,
          fun i hi => hGiven i (List.mem_cons_of_mem id hi)⟩
      · rfl
    exact (hFirst.bind fun _ => .pure fun _ hs => hs).bind fun _ => ih

/-- The end of a block that was opened in a block with the store `outside`. -/
theorem close_builds {base outside : Store} {stmts exprs ids : List NodeId}
    (h : Builds base stmts exprs outside) (start : Position) :
    Triple (Builds ⟨outside.tree, NameTable.empty, outside.table :: outside.outer⟩ ids [])
      (do
        let table ← popScope
        leave
        pushFrom start (.block ids table))
      fun _ => Builds base stmts exprs := by
  intro p hp
  have hOut : p.outer = outside.table :: outside.outer := hp.outer
  have hPop : popScope p =
      .ok p.table { p with table := outside.table, outer := outside.outer } := by
    rw [popScope, hOut]
  have hSelf : Builds outside [] []
      { p.store with table := outside.table, outer := outside.outer } :=
    ⟨hp.tree, rfl, ⟨[], by simp⟩, by simp, hp.composed⟩
  have hInside : Builds base stmts exprs
      { p.store with table := outside.table, outer := outside.outer } := by
    simpa using h.trans hSelf
  simp only [bind, hPop, leave, change, pushFrom, look, push]
  refine hInside.push ⟨.block ids p.table, _⟩ (fun he => by cases he) ?_
  rintro _ _ ⟨⟩ e he
  obtain ⟨new, hNew, hn⟩ := hp.table
  rw [show p.table.entries = new from hNew] at he
  exact hn e he

theorem buildsBlock_blockWith {inner : Inner} (h : inner.Composes) :
    BuildsBlock (blockWith inner) := by
  intro decls base done exprs
  refine (reads_expect _).bind fun first => reads_enter.bind fun _ => .intro fun outside hOut => ?_
  let inside : Store := ⟨outside.tree, NameTable.empty, outside.table :: outside.outer⟩
  have hOpen : Triple (fun u => (Builds base done exprs u ∧ Given u decls) ∧ u = outside) pushScope
      fun _ s => Builds inside [] [] s ∧ Given s decls := by
    rintro p ⟨hp, rfl⟩
    exact ⟨.refl hp.1.composed, hp.2⟩
  refine hOpen.bind fun _ => (declareAll_builds decls).bind fun _ => (reads_look _).bind fun n => ?_
  refine (h.stmts _ n inside [] []).bind fun ids => (reads_expectSymbol _).bind fun _ => ?_
  exact close_builds hOut.1 _

theorem composes_inner (levels : Nat) : Inner.Composes ⟨exprAt levels, blockAt levels⟩ := by
  refine ⟨buildsExpr_exprAt levels, ?_⟩
  induction levels with
  | zero => exact fun _ _ _ _ => (reads_expectSymbol _).bind fun _ => fun _ _ => rfl
  | succ levels ih => exact buildsBlock_blockWith ⟨buildsExpr_exprAt levels, ih⟩

theorem script_composed (host : Host) :
    Triple (fun s => s = ⟨Tree.empty, NameTable.empty, []⟩) (script host)
      fun _ s => s.tree.Composed := by
  let start : Store := ⟨Tree.empty, NameTable.empty, []⟩
  have hEmpty : Tree.empty.Composed := by
    have hNone : ∀ id, Tree.empty.kind? id = none := fun id => by
      simp [Tree.kind?, Tree.get?, Tree.empty]
    exact ⟨fun id k hk => by simp [hNone] at hk, fun id _ _ hk => by simp [hNone] at hk⟩
  have hHost : ∀ (span : Span) (ds : List Definition), (∀ d ∈ ds, d.isVariable = false) →
      Triple (Builds start [] []) (ds.forM fun d => do let _ ← declare d span)
        fun _ => Builds start [] [] := by
    intro span ds
    induction ds with
    | nil => exact fun _ => .pure fun _ hs => hs
    | cons d ds ih =>
      intro hds
      have hFirst : BuildsOn (do let _ ← declare d span) := fun _ _ _ =>
        (declare_on (hds d List.mem_cons_self) span _ _ _).bind fun _ => .pure fun _ hs => hs
      exact (hFirst _ _ _).bind fun _ => ih fun e he => hds e (List.mem_cons_of_mem d he)
  have hStart : ∀ s, s = start → Builds start [] [] s := by
    rintro s rfl
    exact .refl hEmpty
  refine (reads_look _).bind fun origin => Triple.strengthen ?_ hStart
  refine (hHost ⟨origin, origin⟩ host.definitions fun d hd => ?_).bind fun _ => ?_
  · rw [Host.definitions] at hd
    rcases List.mem_append.mp hd with hd | hd <;> obtain ⟨x, -, rfl⟩ := List.mem_map.mp hd <;> rfl
  have hStmts : Triple (Builds start [] [])
      (here fun inner => do stmts inner (fun _ => false) (← look Parser.rounds))
      fun ids => Builds start ids [] := fun p hp =>
    (composes_inner _).stmts (fun _ => false) p.rounds start [] [] p hp
  refine hStmts.bind fun ids p hp => ?_
  have hPop : popScope p = .ok p.table { p with table := NameTable.empty, outer := [] } := by
    rw [popScope, show p.outer = [] from hp.outer]
  simp only [bind, hPop, pushFrom, look, push, change]
  have hRoot : ∀ span, (p.tree.push ⟨.block ids p.table, span⟩).Composed := by
    refine fun span => hp.composed.push _ (fun he => by cases he) ?_
    rintro _ _ ⟨⟩ e he
    obtain ⟨new, hNew, hn⟩ := hp.table
    rw [show p.table.entries = new from hNew] at he
    exact hn e he
  exact ⟨(hRoot _).part, (hRoot _).shown⟩

end Parse

/-- Parsed trees are composed of expressions and statements as the grammar says. -/
theorem parse_composed {tokens : List Token} {file : String} {host : Host} {tree : Tree}
    (h : parse tokens file host = .ok tree) : tree.Composed := by
  have hs := Parse.script_composed host (Parser.start tokens file true) rfl
  rw [parse] at h
  cases hr : Parse.script host (Parser.start tokens file true) with
  | ok a q =>
    rw [hr] at h hs
    cases h
    exact hs
  | fail d q =>
    rw [hr] at h
    cases h

end StageScript

import Mathlib.Data.List.Forall2
import StageScript.Proofs.Parse.Operator
import StageScript.Proofs.Tree.Shape

/-!
# The grammar of expressions

Expressions as they are written, in layers from the loosest operators to what stands alone:

```text
Or   = Or '||' And | And
And  = And '&&' Rel | Rel
Rel  = Rel ('<' | '<=' | '>' | '>=' | '==' | '!=') Add | Add
Add  = Add ('+' | '-' | '~') Mul | Mul
Mul  = Mul ('*' | '/' | '%') Un | Un
Un   = ('-' | '!') Un | Pow
Pow  = Post '^' Un | Post
Post = Post '[' Or ']' | Post '[' Or '..' Or ']' | Prim
Prim = literal | name | name '(' List ')' | '[' List ']' | '(' Or ')' | '(|' Or '|)'
List = nothing | Or | Or ',' List
```

A layer is named by the power of its operators.  `Derives n c w e` says that the layer `c`
derives the word `w` with the tree `e`, where no part is nested more than `n` deep.
-/

namespace StageScript

/-- An expression by itself, apart from the tree that it is a part of. -/
inductive Expr where
  | num (value : Binary64)
  | char (c : Char)
  | str (value : String)
  | ref (name : String)
  | call (name : String) (args : List Expr)
  | array (elems : List Expr)
  | unary (op : UnaryOp) (operand : Expr)
  | binary (op : BinaryOp) (lhs rhs : Expr)
  | element (base index : Expr)
  | slice (base start stop : Expr)

/-- The node `id` of the tree and what is below it make up the expression. -/
inductive Shows (t : Tree) : NodeId → Expr → Prop
  | num {id : NodeId} {value : Binary64} : t.kind? id = some (.num value) →
      Shows t id (.num value)
  | char {id : NodeId} {c : Char} : t.kind? id = some (.char c) → Shows t id (.char c)
  | str {id : NodeId} {value : String} : t.kind? id = some (.str value) → Shows t id (.str value)
  | ref {id : NodeId} {name : String} : t.kind? id = some (.ref name) → Shows t id (.ref name)
  | call {id : NodeId} {name : String} {ids : List NodeId} {args : List Expr} :
      t.kind? id = some (.call name ids) → ids.length = args.length →
      (∀ p ∈ ids.zip args, Shows t p.1 p.2) → Shows t id (.call name args)
  | array {id : NodeId} {ids : List NodeId} {elems : List Expr} :
      t.kind? id = some (.array ids) → ids.length = elems.length →
      (∀ p ∈ ids.zip elems, Shows t p.1 p.2) → Shows t id (.array elems)
  | unary {id a : NodeId} {op : UnaryOp} {operand : Expr} :
      t.kind? id = some (.unary op a) → Shows t a operand → Shows t id (.unary op operand)
  | binary {id a b : NodeId} {op : BinaryOp} {lhs rhs : Expr} :
      t.kind? id = some (.binary op a b) → Shows t a lhs → Shows t b rhs →
      Shows t id (.binary op lhs rhs)
  | element {id a b : NodeId} {base index : Expr} : t.kind? id = some (.element a b) →
      Shows t a base → Shows t b index → Shows t id (.element base index)
  | slice {id a r b c : NodeId} {base start stop : Expr} : t.kind? id = some (.slice a r) →
      t.kind? r = some (.range b c) → Shows t a base → Shows t b start → Shows t c stop →
      Shows t id (.slice base start stop)

/-- What a tree shows stays when the tree grows. -/
theorem Shows.mono {t u : Tree} (hu : t.Extends u) {id : NodeId} {e : Expr} (h : Shows t id e) :
    Shows u id e := by
  induction h with
  | num hk => exact .num (hu.kind? hk)
  | char hk => exact .char (hu.kind? hk)
  | str hk => exact .str (hu.kind? hk)
  | ref hk => exact .ref (hu.kind? hk)
  | call hk hl _ ih => exact .call (hu.kind? hk) hl ih
  | array hk hl _ ih => exact .array (hu.kind? hk) hl ih
  | unary hk _ ih => exact .unary (hu.kind? hk) ih
  | binary hk _ _ iha ihb => exact .binary (hu.kind? hk) iha ihb
  | element hk _ _ iha ihb => exact .element (hu.kind? hk) iha ihb
  | slice hk hr _ _ _ iha ihb ihc => exact .slice (hu.kind? hk) (hu.kind? hr) iha ihb ihc

/-- What is shown by the nodes of a list, in the form that a node with a list needs. -/
theorem shows_zip {t : Tree} {ids : List NodeId} {es : List Expr}
    (h : List.Forall₂ (Shows t) ids es) :
    ids.length = es.length ∧ ∀ x ∈ ids.zip es, Shows t x.1 x.2 :=
  ⟨h.length_eq, fun _ hx => List.forall₂_zip h hx⟩

theorem forall₂_mono {t u : Tree} (hu : t.Extends u) {ids : List NodeId} {es : List Expr}
    (h : List.Forall₂ (Shows t) ids es) : List.Forall₂ (Shows u) ids es :=
  h.imp fun _ _ => Shows.mono hu

/-! ### Layers -/

namespace Power

def tighter : Power → Power
  | lowest => logicalOr
  | logicalOr => logicalAnd
  | logicalAnd => relational
  | relational => additive
  | additive => multiplicative
  | multiplicative => unary
  | unary => exponent
  | exponent => index
  | index => primary
  | primary => primary

/-- The layer of the expressions whose operators bind tighter than `c`. -/
def operand : Power → Power
  | unary => unary
  | c => c.tighter

def operators : Power → List (Symbol × BinaryOp)
  | logicalOr => [(.bars, .or)]
  | logicalAnd => [(.ampersands, .and)]
  | relational => [(.less, .lt), (.lessEquals, .le), (.greater, .gt), (.greaterEquals, .ge),
      (.equals, .eq), (.notEquals, .ne)]
  | additive => [(.plus, .add), (.dash, .sub), (.tilde, .cat)]
  | multiplicative => [(.star, .mul), (.slash, .div), (.percent, .rem)]
  | _ => []

end Power

def signs : List (Symbol × UnaryOp) := [(.dash, .neg), (.bang, .not)]

inductive Denotes (token : Token) : Expr → Prop
  | num {value : Binary64} : token.kind = .number → Numeral.parse? token.value = some value →
      Denotes token (.num value)
  | char {c : Char} {cs : List Char} : token.kind = .char → token.value.toList = c :: cs →
      Denotes token (.char c)
  | str : token.kind = .string → Denotes token (.str token.value)

/-- The words of items with commas between them, and at most one after the last. -/
inductive Listed : List (List Token) → List Token → Prop
  | nil : Listed [] []
  | last {w : List Token} : Listed [w] w
  | cons {w rest : List Token} {ws : List (List Token)} {comma : Token} :
      comma.kind = .symbol .comma → Listed ws rest → Listed (w :: ws) (w ++ comma :: rest)

structure Item where
  word : List Token
  expr : Expr
  depth : Nat

/-- A layer derives a word with a tree, and no part is nested more than `n` deep. -/
inductive Derives : Nat → Power → List Token → Expr → Prop
  | lift {n : Nat} {c : Power} {w : List Token} {e : Expr} :
      Derives n c.tighter w e → Derives n c w e
  | binary {n m : Nat} {c : Power} {s : Symbol} {op : BinaryOp} {l r : List Token} {token : Token}
      {a b : Expr} : (s, op) ∈ c.operators → token.kind = .symbol s → Derives n c l a → m < n →
      Derives m c.tighter r b → Derives n c (l ++ token :: r) (.binary op a b)
  | sign {n m : Nat} {s : Symbol} {op : UnaryOp} {w : List Token} {token : Token} {a : Expr} :
      (s, op) ∈ signs → token.kind = .symbol s → m < n → Derives m .unary w a →
      Derives n .unary (token :: w) (.unary op a)
  | power {n m : Nat} {l r : List Token} {token : Token} {a b : Expr} :
      token.kind = .symbol .caret → Derives n .index l a → m < n → Derives m .unary r b →
      Derives n .exponent (l ++ token :: r) (.binary .pow a b)
  | element {n m : Nat} {l w : List Token} {opening closing : Token} {a b : Expr} :
      Derives n .index l a → opening.kind = .symbol .openBracket → m < n →
      Derives m .logicalOr w b → closing.kind = .symbol .closeBracket →
      Derives n .index (l ++ opening :: (w ++ [closing])) (.element a b)
  | slice {n m k : Nat} {l v w : List Token} {opening dots closing : Token} {a b c : Expr} :
      Derives n .index l a → opening.kind = .symbol .openBracket → m < n →
      Derives m .logicalOr v b → dots.kind = .symbol .dots → k < n → Derives k .logicalOr w c →
      closing.kind = .symbol .closeBracket →
      Derives n .index (l ++ opening :: (v ++ dots :: (w ++ [closing]))) (.slice a b c)
  | literal {n : Nat} {token : Token} {e : Expr} : Denotes token e → Derives n .primary [token] e
  | ref {n : Nat} {token : Token} : token.kind = .identifier →
      Derives n .primary [token] (.ref token.value)
  | call {n : Nat} {token opening closing : Token} {items : List Item} {w : List Token} :
      token.kind = .identifier → opening.kind = .symbol .openParen →
      Listed (items.map Item.word) w →
      (∀ i ∈ items, i.depth < n) → (∀ i ∈ items, Derives i.depth .logicalOr i.word i.expr) →
      closing.kind = .symbol .closeParen →
      Derives n .primary (token :: opening :: (w ++ [closing]))
        (.call token.value (items.map Item.expr))
  | array {n : Nat} {opening closing : Token} {items : List Item} {w : List Token} :
      opening.kind = .symbol .openBracket → Listed (items.map Item.word) w →
      (∀ i ∈ items, i.depth < n) → (∀ i ∈ items, Derives i.depth .logicalOr i.word i.expr) →
      closing.kind = .symbol .closeBracket →
      Derives n .primary (opening :: (w ++ [closing])) (.array (items.map Item.expr))
  | group {n m : Nat} {opening closing : Token} {w : List Token} {e : Expr} :
      opening.kind = .symbol .openParen → m < n → Derives m .logicalOr w e →
      closing.kind = .symbol .closeParen → Derives n .primary (opening :: (w ++ [closing])) e
  | absolute {n m : Nat} {opening closing : Token} {w : List Token} {e : Expr} :
      opening.kind = .symbol .openAbs → m < n → Derives m .logicalOr w e →
      closing.kind = .symbol .closeAbs →
      Derives n .primary (opening :: (w ++ [closing])) (.unary .abs e)

def TokenKind.IsInfix (kind : TokenKind) : Prop :=
  kind = .symbol .caret ∨ ∃ c : Power, ∃ s op, (s, op) ∈ c.operators ∧ kind = .symbol s

/-! ### The tables of the parser

What the parser goes by when it looks at a token agrees with the layers. -/

/-- The tokens that start an expression with the given head. -/
theorem Head.ofKind?_cases {kind : TokenKind} {head : Head} (h : Head.ofKind? kind = some head) :
    match head with
    | .literal => kind = .number ∨ kind = .char ∨ kind = .string
    | .name => kind = .identifier
    | .array => kind = .symbol .openBracket
    | .group => kind = .symbol .openParen
    | .absolute => kind = .symbol .openAbs
    | .sign => kind = .symbol .dash ∨ kind = .symbol .bang := by
  cases kind with
  | symbol s => cases s <;> cases h <;> simp
  | _ => cases h <;> simp

theorem Operator.ofKind?_of_mem {c : Power} {s : Symbol} {op : BinaryOp}
    (h : (s, op) ∈ c.operators) :
    Operator.ofKind? (.symbol s) = some (.binary, c) ∧ BinaryOp.ofKind? (.symbol s) = some op := by
  have hAll : ∀ p ∈ c.operators, Operator.ofKind? (.symbol p.1) = some (.binary, c) ∧
      BinaryOp.ofKind? (.symbol p.1) = some p.2 := by
    cases c <;> decide
  exact hAll (s, op) h

theorem Operator.ofKind?_cases {kind : TokenKind} {tail : Tail} {c : Power}
    (h : Operator.ofKind? kind = some (tail, c)) :
    (tail = .binary ∧ ∃ s op, (s, op) ∈ c.operators ∧ kind = .symbol s) ∨
      (tail = .exponent ∧ c = .exponent ∧ kind = .symbol .caret) ∨
      (tail = .index ∧ c = .index ∧ kind = .symbol .openBracket) := by
  cases kind with
  | symbol s => cases s <;> cases h <;> simp [Power.operators]
  | _ => cases h

/-- The tokens that go on with an expression are the infix operators and the opening
bracket. -/
theorem Operator.ofKind?_eq_none_iff {kind : TokenKind} :
    Operator.ofKind? kind = none ↔ ¬ kind.IsInfix ∧ kind ≠ .symbol .openBracket := by
  constructor
  · intro h
    refine ⟨?_, ?_⟩
    · rintro (rfl | ⟨c, s, op, hm, rfl⟩)
      · cases h
      · rw [(Operator.ofKind?_of_mem hm).1] at h
        cases h
    · rintro rfl
      cases h
  · rintro ⟨hInfix, hOpen⟩
    cases h : Operator.ofKind? kind with
    | none => rfl
    | some found =>
      obtain ⟨tail, c⟩ := found
      rcases Operator.ofKind?_cases h with ⟨-, s, op, hm, hk⟩ | ⟨-, -, hk⟩ | ⟨-, -, hk⟩
      · exact absurd (Or.inr ⟨c, s, op, hm, hk⟩) hInfix
      · exact absurd (Or.inl hk) hInfix
      · exact absurd hk hOpen

/-- The layers with operators of their own are the five loosest. -/
theorem Power.rank_of_mem {c : Power} {s : Symbol} {op : BinaryOp} (h : (s, op) ∈ c.operators) :
    c.rank ≤ 5 ∧ c.tighter.rank = c.rank + 1 := by
  cases c <;> simp_all [operators, rank, tighter]

theorem Power.operand_of_mem {c : Power} {s : Symbol} {op : BinaryOp}
    (h : (s, op) ∈ c.operators) : c.operand = c.tighter := by
  cases c <;> simp_all [operators, operand]

theorem Power.rank_operand_le (c : Power) : c.operand.rank ≤ c.rank + 1 := by
  cases c <;> decide

theorem Power.rank_operand_le_six {c : Power} (h : c.rank ≤ 6) : c.operand.rank ≤ 6 := by
  cases c <;> simp_all [rank, operand, tighter]

theorem Power.rank_le_operand (c : Power) : c.rank ≤ c.operand.rank := by
  cases c <;> decide

theorem Power.rank_lt_of_operand_le {c t : Power} (h : c.operand.rank ≤ t.rank)
    (ht : t.rank ≤ 5) : c.rank < t.rank := by
  cases c <;> simp_all [rank, operand, tighter] <;> omega

theorem Power.rank_le_tighter (c : Power) : c.rank ≤ c.tighter.rank := by
  cases c <;> decide

theorem Power.eq_of_rank_eq {c d : Power} (h : c.rank = d.rank) : c = d := by
  cases c <;> cases d <;> simp_all [rank]

theorem Power.rank_tighter {c : Power} (h : c.rank < 9) : c.tighter.rank = c.rank + 1 := by
  cases c <;> simp_all [rank, tighter]

/-- What a layer derives, every looser layer derives. -/
theorem Derives.loosen {n : Nat} {c d : Power} {w : List Token} {e : Expr} (h : Derives n c w e)
    (hd : d.rank ≤ c.rank) : Derives n d w e := by
  obtain ⟨k, hk⟩ := Nat.exists_eq_add_of_le hd
  induction k generalizing d with
  | zero => exact Power.eq_of_rank_eq hk ▸ h
  | succ k ih =>
    have hTop : c.rank ≤ 9 := by cases c <;> decide
    have hNext := Power.rank_tighter (show d.rank < 9 by omega)
    exact .lift (ih (by omega) (by omega))

theorem head_of_sign {s : Symbol} {op : UnaryOp} (h : (s, op) ∈ signs) :
    Head.ofKind? (.symbol s) = some .sign := by
  have hAll : ∀ p ∈ signs, Head.ofKind? (.symbol p.1) = some .sign := by decide
  exact hAll _ h

theorem Denotes.head {token : Token} {e : Expr} (h : Denotes token e) :
    Head.ofKind? token.kind = some .literal := by
  cases h with
  | num hk | char hk | str hk => rw [hk]; rfl

/-- Every word of a layer starts with a head. -/
theorem Derives.starts {n : Nat} {c : Power} {w : List Token} {e : Expr} (h : Derives n c w e) :
    ∃ token rest head, w = token :: rest ∧ Head.ofKind? token.kind = some head := by
  induction h with
  | lift _ ih => exact ih
  | binary _ _ _ _ _ ih | power _ _ _ _ ih | element _ _ _ _ _ ih | slice _ _ _ _ _ _ _ _ ih =>
    obtain ⟨token, rest, head, rfl, hk⟩ := ih
    exact ⟨token, _, head, rfl, hk⟩
  | sign hs hk => exact ⟨_, _, _, rfl, hk ▸ head_of_sign hs⟩
  | literal h => exact ⟨_, _, _, rfl, h.head⟩
  | ref hk | call hk | array hk | group hk | absolute hk =>
    exact ⟨_, _, _, rfl, by rw [hk]; rfl⟩

theorem Derives.ne_nil {n : Nat} {c : Power} {w : List Token} {e : Expr} (h : Derives n c w e) :
    w ≠ [] := by
  obtain ⟨token, rest, head, rfl, -⟩ := h.starts
  exact List.cons_ne_nil _ _

end StageScript

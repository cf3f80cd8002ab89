import Mathlib
import StageScript.Proofs.Token.Literal
import StageScript.Text.Blank
import StageScript.Text.Layout

/-!
# Programs and how they are written

A program by itself, apart from any source and any tree: statements over expressions whose
numbers are given by their texts.  `Term.phrase` and `Stmt.phrase` write it down as words, with
parentheses around just those operands that bind too loosely for their place, and count on the
way how deep blocks and expressions are nested.

No block of a program may declare a name twice (`Distinct`).  What is given to a block counts
among its declarations: the parameters and the result of what it is the body of, its loop
variable, or the definitions of the host.
-/

namespace StageScript

/-! ### Words and phrases -/

/-- A token without its place in the source. -/
structure Word where
  kind : TokenKind
  text : String
  deriving DecidableEq

def Token.word (token : Token) : Word := ⟨token.kind, token.value⟩

namespace Word

def symbol (s : Symbol) : Word := ⟨.symbol s, s.text⟩

def keyword (k : Keyword) : Word := ⟨.keyword k, k.texts.headD ""⟩

def name (text : String) : Word := ⟨.identifier, text⟩

def eof : Word := ⟨.eof, "EOF"⟩

@[simp] theorem kind_symbol (s : Symbol) : (symbol s).kind = .symbol s := rfl

@[simp] theorem kind_keyword (k : Keyword) : (keyword k).kind = .keyword k := rfl

@[simp] theorem kind_name (text : String) : (name text).kind = .identifier := rfl

@[simp] theorem text_name (text : String) : (name text).text = text := rfl

@[simp] theorem kind_eof : eof.kind = .eof := rfl

end Word

/-- Words in a row, and how many blocks and expressions are open at most at one of them. -/
structure Phrase where
  words : List Word
  nesting : Nat

namespace Phrase

def empty : Phrase := ⟨[], 0⟩

def word (w : Word) : Phrase := ⟨[w], 0⟩

def symbol (s : Symbol) : Phrase := word (.symbol s)

def keyword (k : Keyword) : Phrase := word (.keyword k)

def name (text : String) : Phrase := word (.name text)

instance : Append Phrase := ⟨fun φ ψ => ⟨φ.words ++ ψ.words, max φ.nesting ψ.nesting⟩⟩

def deeper (φ : Phrase) : Phrase := { φ with nesting := φ.nesting + 1 }

def parens (φ : Phrase) : Phrase := symbol .openParen ++ φ ++ symbol .closeParen

def brackets (φ : Phrase) : Phrase := symbol .openBracket ++ φ ++ symbol .closeBracket

def commas : List Phrase → Phrase
  | [] => empty
  | [φ] => φ
  | φ :: ψ :: rest => φ ++ symbol .comma ++ commas (ψ :: rest)

def braces (φ : Phrase) : Phrase := (symbol .openCurly ++ φ ++ symbol .closeCurly).deeper

/-- Parentheses, if what binds like `layer` stands where only `c` and tighter can. -/
def wrap (c layer : Power) (φ : Phrase) : Phrase :=
  if layer.rank < c.rank then φ.deeper.parens else φ

@[simp] theorem words_append (φ ψ : Phrase) : (φ ++ ψ).words = φ.words ++ ψ.words := rfl

@[simp] theorem nesting_append (φ ψ : Phrase) : (φ ++ ψ).nesting = max φ.nesting ψ.nesting := rfl

@[simp] theorem words_empty : empty.words = [] := rfl

@[simp] theorem nesting_empty : empty.nesting = 0 := rfl

@[simp] theorem words_word (w : Word) : (word w).words = [w] := rfl

@[simp] theorem nesting_word (w : Word) : (word w).nesting = 0 := rfl

@[simp] theorem words_symbol (s : Symbol) : (symbol s).words = [.symbol s] := rfl

@[simp] theorem nesting_symbol (s : Symbol) : (symbol s).nesting = 0 := rfl

@[simp] theorem words_keyword (k : Keyword) : (keyword k).words = [.keyword k] := rfl

@[simp] theorem nesting_keyword (k : Keyword) : (keyword k).nesting = 0 := rfl

@[simp] theorem words_name (text : String) : (name text).words = [.name text] := rfl

@[simp] theorem nesting_name (text : String) : (name text).nesting = 0 := rfl

@[simp] theorem words_deeper (φ : Phrase) : φ.deeper.words = φ.words := rfl

@[simp] theorem nesting_deeper (φ : Phrase) : φ.deeper.nesting = φ.nesting + 1 := rfl

@[simp] theorem words_parens (φ : Phrase) :
    φ.parens.words = .symbol .openParen :: (φ.words ++ [.symbol .closeParen]) := rfl

@[simp] theorem nesting_parens (φ : Phrase) : φ.parens.nesting = φ.nesting := by
  simp [parens]

@[simp] theorem words_brackets (φ : Phrase) :
    φ.brackets.words = .symbol .openBracket :: (φ.words ++ [.symbol .closeBracket]) := rfl

@[simp] theorem nesting_brackets (φ : Phrase) : φ.brackets.nesting = φ.nesting := by
  simp [brackets]

@[simp] theorem words_braces (φ : Phrase) :
    φ.braces.words = .symbol .openCurly :: (φ.words ++ [.symbol .closeCurly]) := rfl

@[simp] theorem nesting_braces (φ : Phrase) : φ.braces.nesting = φ.nesting + 1 := by
  simp [braces]

end Phrase

/-! ### Expressions -/

structure NumberText where
  text : String
  isNumber : Pattern.numberLength? text.toList = some text.toList.length

namespace NumberText

theorem isSome_parse? (n : NumberText) : (Numeral.parse? n.text).isSome = true := by
  obtain ⟨-, value, hValue⟩ := Pattern.exists_parse?_of_number n.isNumber
  rw [List.take_length, String.ofList_toList] at hValue
  rw [hValue]
  rfl

def value (n : NumberText) : Binary64 := (Numeral.parse? n.text).get n.isSome_parse?

theorem parse?_eq (n : NumberText) : Numeral.parse? n.text = some n.value :=
  (Option.some_get _).symm

end NumberText

/-- An expression with the texts of its numbers. -/
inductive Term where
  | num (n : NumberText)
  | char (c : Char)
  | str (value : String)
  | ref (name : String)
  | call (name : String) (args : List Term)
  | array (elems : List Term)
  | unary (op : UnaryOp) (operand : Term)
  | binary (op : BinaryOp) (lhs rhs : Term)
  | element (base index : Term)
  | slice (base start stop : Term)

namespace BinaryOp

def layer : BinaryOp → Power
  | or => .logicalOr
  | and => .logicalAnd
  | lt | gt | le | ge | eq | ne => .relational
  | add | sub | cat => .additive
  | mul | div | rem => .multiplicative
  | pow => .exponent

def leftLayer : BinaryOp → Power
  | pow => .index
  | op => op.layer

def rightLayer : BinaryOp → Power
  | pow => .unary
  | op => op.layer.tighter

end BinaryOp

namespace Term

mutual

def expr : Term → Expr
  | num n => .num n.value
  | char c => .char c
  | str value => .str value
  | ref name => .ref name
  | call name args => .call name (exprs args)
  | array elems => .array (exprs elems)
  | unary op operand => .unary op operand.expr
  | binary op lhs rhs => .binary op lhs.expr rhs.expr
  | element base index => .element base.expr index.expr
  | slice base start stop => .slice base.expr start.expr stop.expr

def exprs : List Term → List Expr
  | [] => []
  | e :: es => e.expr :: exprs es

end

mutual

/-- The words of a term in a place where only the layer `c` and tighter ones can stand. -/
def phrase (c : Power) : Term → Phrase
  | num n => .word ⟨.number, n.text⟩
  | char ch => .word ⟨.char, String.singleton ch⟩
  | str value => .word ⟨.string, value⟩
  | ref name => .name name
  | call name args => .name name ++ (Phrase.commas (phrases args)).parens
  | array elems => (Phrase.commas (phrases elems)).brackets
  | unary .abs operand =>
    .symbol .openAbs ++ (operand.phrase .logicalOr).deeper ++ .symbol .closeAbs
  | unary .neg operand => .wrap c .unary (.symbol .dash ++ (operand.phrase .unary).deeper)
  | unary .not operand => .wrap c .unary (.symbol .bang ++ (operand.phrase .unary).deeper)
  | binary op lhs rhs =>
    .wrap c op.layer
      (lhs.phrase op.leftLayer ++ .symbol op.symbol ++ (rhs.phrase op.rightLayer).deeper)
  | element base index => base.phrase .index ++ ((index.phrase .logicalOr).deeper).brackets
  | slice base start stop =>
    base.phrase .index ++ ((start.phrase .logicalOr).deeper ++ .symbol .dots
      ++ (stop.phrase .logicalOr).deeper).brackets

def phrases : List Term → List Phrase
  | [] => []
  | e :: es => (e.phrase .logicalOr).deeper :: phrases es

end

def whole (e : Term) : Phrase := (e.phrase .logicalOr).deeper

theorem exprs_eq_map (es : List Term) : exprs es = es.map expr := by
  induction es with
  | nil => rfl
  | cons e es ih => rw [exprs, ih, List.map_cons]

theorem phrases_eq_map (es : List Term) : phrases es = es.map whole := by
  induction es with
  | nil => rfl
  | cons e es ih => rw [phrases, ih, List.map_cons, whole]

end Term

/-! ### Statements -/

/-- A parameter of a header as it is kept: not empty, without blanks around it, and without
the characters that end it. -/
def IsHeaderParam (s : String) : Prop :=
  s ≠ "" ∧ Text.trim s.toList = s.toList ∧ ',' ∉ s.toList ∧ ']' ∉ s.toList

instance (s : String) : Decidable (IsHeaderParam s) :=
  inferInstanceAs (Decidable (_ ∧ _ ∧ _ ∧ _))

structure Header where
  name : String
  params : List String
  name_plain : '[' ∉ name.toList
  params_plain : ∀ s ∈ params, IsHeaderParam s

/-- A header behind its mark; the list is left out if it is empty. -/
def Header.text (h : Header) : String :=
  String.ofList (h.name.toList ++
    if h.params = [] then []
    else '[' :: (List.intercalate [','] (h.params.map String.toList) ++ [']']))

/-- A statement over expressions of any kind. -/
inductive Stmt (ε : Type) where
  | header (h : Header)
  | var (name : String) (init : Option ε)
  /-- A function, or a task. -/
  | callable (function : Bool) (name : String) (params : List String) (body : List (Stmt ε))
  | sub (name : String) (body : List (Stmt ε))
  | entryRoutine (name : String) (body : List (Stmt ε))
  | ifElse (cond : ε) (body : List (Stmt ε)) (branches : List (ε × List (Stmt ε)))
      (last : Option (List (Stmt ε)))
  | loop (body : List (Stmt ε))
  | times (count : ε) (body : List (Stmt ε))
  | whileLoop (cond : ε) (body : List (Stmt ε))
  /-- A loop over a range, downward or upward. -/
  | rangeLoop (down : Bool) (name : String) (start stop : ε) (body : List (Stmt ε))
  /-- Every case has a first value. -/
  | alternative (cond : ε) (cases : List ((ε × List ε) × List (Stmt ε)))
      (others : Option (List (Stmt ε)))
  | localBlock (body : List (Stmt ε))
  | returnStmt (value : Option ε)
  | yield
  | breakLoop
  | assign (op : AssignOp) (name : String) (indices : List ε) (value : ε)
  /-- A step by one, down or up. -/
  | step (down : Bool) (name : String) (indices : List ε)
  | call (name : String) (args : List ε)
  | nop

namespace Stmt

variable {ε δ : Type}

/-- The names that a statement declares in its block. -/
def names : Stmt ε → List String
  | var name _ => [name]
  | callable _ name _ _ => [name]
  | sub name _ => [name]
  | entryRoutine name _ => [name]
  | _ => []

def given (function : Bool) (params : List String) : List String :=
  params ++ if function then ["result"] else []

/-- The blocks of a statement, with the names that they are given. -/
def blocks : Stmt ε → List (List String × List (Stmt ε))
  | callable function _ params body => [(given function params, body)]
  | sub _ body | entryRoutine _ body | loop body | times _ body | whileLoop _ body
  | localBlock body => [([], body)]
  | ifElse _ body branches last =>
    ([], body) :: (branches.map fun branch => ([], branch.2)) ++ last.toList.map fun b => ([], b)
  | rangeLoop _ name _ _ body => [([name], body)]
  | alternative _ cases others =>
    (cases.map fun c => ([], c.2)) ++ others.toList.map fun b => ([], b)
  | _ => []

def declares (body : List (Stmt ε)) : List String := body.flatMap names

/-- Neither the block nor a block inside it declares a name twice. -/
inductive Distinct : List String → List (Stmt ε) → Prop
  | block {given : List String} {body : List (Stmt ε)} : (given ++ declares body).Nodup →
      (∀ s ∈ body, ∀ b ∈ s.blocks, Distinct b.1 b.2) → Distinct given body

/-! Every expression is replaced by its image. -/

mutual

def map (f : ε → δ) : Stmt ε → Stmt δ
  | header h => header h
  | var name init => var name (init.map f)
  | callable function name params body => callable function name params (mapAll f body)
  | sub name body => sub name (mapAll f body)
  | entryRoutine name body => entryRoutine name (mapAll f body)
  | ifElse cond body branches last =>
    ifElse (f cond) (mapAll f body) (mapBranches f branches) (mapLast f last)
  | loop body => loop (mapAll f body)
  | times count body => times (f count) (mapAll f body)
  | whileLoop cond body => whileLoop (f cond) (mapAll f body)
  | rangeLoop down name start stop body => rangeLoop down name (f start) (f stop) (mapAll f body)
  | alternative cond cases others =>
    alternative (f cond) (mapCases f cases) (mapLast f others)
  | localBlock body => localBlock (mapAll f body)
  | returnStmt value => returnStmt (value.map f)
  | yield => yield
  | breakLoop => breakLoop
  | assign op name indices value => assign op name (indices.map f) (f value)
  | step down name indices => step down name (indices.map f)
  | call name args => call name (args.map f)
  | nop => nop

def mapAll (f : ε → δ) : List (Stmt ε) → List (Stmt δ)
  | [] => []
  | s :: rest => s.map f :: mapAll f rest

def mapBranches (f : ε → δ) : List (ε × List (Stmt ε)) → List (δ × List (Stmt δ))
  | [] => []
  | (cond, body) :: rest => (f cond, mapAll f body) :: mapBranches f rest

def mapCases (f : ε → δ) : List ((ε × List ε) × List (Stmt ε)) → List ((δ × List δ) × List (Stmt δ))
  | [] => []
  | ((first, more), body) :: rest => ((f first, more.map f), mapAll f body) :: mapCases f rest

def mapLast (f : ε → δ) : Option (List (Stmt ε)) → Option (List (Stmt δ))
  | none => none
  | some body => some (mapAll f body)

end

attribute [simp] map mapBranches mapCases mapLast

/-! The words of statements. -/

/-- The parameters of a callable; no parentheses if there are none. -/
def paramsPhrase (params : List String) : Phrase :=
  if params = [] then .empty else (Phrase.commas (params.map .name)).parens

def indexPhrases : List Term → Phrase
  | [] => .empty
  | e :: es => e.whole.brackets ++ indexPhrases es

mutual

def phrase : Stmt Term → Phrase
  | header h => .word ⟨.header, h.text⟩
  | var name none => .keyword .letWord ++ .name name ++ .symbol .semicolon
  | var name (some e) =>
    .keyword .letWord ++ .name name ++ .symbol .assign ++ e.whole ++ .symbol .semicolon
  | callable function name params body =>
    .keyword (if function then .functionWord else .taskWord) ++ .name name
      ++ paramsPhrase params ++ (phrases body).braces
  | sub name body => .keyword .subWord ++ .name name ++ (phrases body).braces
  | entryRoutine name body => .word ⟨.entryRoutine, name⟩ ++ (phrases body).braces
  | ifElse cond body branches last =>
    .keyword .ifWord ++ cond.whole.parens ++ (phrases body).braces ++ branchPhrases branches
      ++ lastPhrase .elseWord last
  | loop body => .keyword .loopWord ++ (phrases body).braces
  | times count body => .keyword .timesWord ++ count.whole.parens ++ (phrases body).braces
  | whileLoop cond body => .keyword .whileWord ++ cond.whole.parens ++ (phrases body).braces
  | rangeLoop down name start stop body =>
    .keyword (if down then .descentWord else .ascentWord) ++ .symbol .openParen ++ .name name
      ++ .keyword .inWord ++ start.whole ++ .symbol .dots ++ stop.whole ++ .symbol .closeParen
      ++ (phrases body).braces
  | alternative cond cases others =>
    .keyword .alternativeWord ++ cond.whole.parens ++ casePhrases cases
      ++ lastPhrase .othersWord others
  | localBlock body => .keyword .localWord ++ (phrases body).braces
  | returnStmt none => .keyword .returnWord ++ .symbol .semicolon
  | returnStmt (some e) => .keyword .returnWord ++ e.whole ++ .symbol .semicolon
  | yield => .keyword .yieldWord ++ .symbol .semicolon
  | breakLoop => .keyword .breakWord ++ .symbol .semicolon
  | assign op name indices value =>
    .name name ++ indexPhrases indices ++ .symbol op.symbol ++ value.whole ++ .symbol .semicolon
  | step down name indices =>
    .name name ++ indexPhrases indices ++ .symbol (if down then .minusMinus else .plusPlus)
      ++ .symbol .semicolon
  | call name [] => .name name ++ .symbol .semicolon
  | call name (first :: more) =>
    .name name ++ (Phrase.commas ((first :: more).map Term.whole)).parens ++ .symbol .semicolon
  | nop => .symbol .semicolon

def phrases : List (Stmt Term) → Phrase
  | [] => .empty
  | s :: rest => s.phrase ++ phrases rest

def branchPhrases : List (Term × List (Stmt Term)) → Phrase
  | [] => .empty
  | (cond, body) :: rest =>
    .keyword .elseWord ++ .keyword .ifWord ++ cond.whole.parens ++ (phrases body).braces
      ++ branchPhrases rest

def casePhrases : List ((Term × List Term) × List (Stmt Term)) → Phrase
  | [] => .empty
  | ((first, more), body) :: rest =>
    .keyword .caseWord ++ (Phrase.commas ((first :: more).map Term.whole)).parens
      ++ (phrases body).braces ++ casePhrases rest

def lastPhrase (k : Keyword) : Option (List (Stmt Term)) → Phrase
  | none => .empty
  | some body => .keyword k ++ (phrases body).braces

end

end Stmt

end StageScript

import StageScript.Parse.Grammar
import StageScript.Scope.Chain
import StageScript.Token.Basic
import StageScript.Tree.Basic

/-!
# Parsers

A parser reads tokens from left to right and builds a tree.  It keeps the table of
the block it is in, the tables around it, and how deep blocks and expressions are
nested.  Past the last token, the last token is read again and again.
-/

namespace StageScript

/-- How deep blocks and expressions can be nested. -/
def maxNesting : Nat := 256

structure Parser where
  tokens : Array Token
  /-- The number of tokens consumed. -/
  pos : Nat
  file : String
  /-- A parser that does not know the grammar finds no construct at any token. -/
  knowsGrammar : Bool
  tree : Tree
  /-- The table of the block being parsed. -/
  table : NameTable
  /-- The tables of the blocks around it, the innermost first. -/
  outer : Chain
  /-- The number of blocks and expressions open around the current token. -/
  nesting : Nat
  deriving DecidableEq, Inhabited

namespace Parser

/-- The parser before the first token. -/
def start (tokens : List Token) (file : String) (knowsGrammar : Bool) : Parser where
  tokens := tokens.toArray
  pos := 0
  file := file
  knowsGrammar := knowsGrammar
  tree := Tree.empty
  table := NameTable.empty
  outer := []
  nesting := 0

def current (p : Parser) : Token :=
  p.tokens[min p.pos (p.tokens.size - 1)]?.getD (Token.atEnd p.file 0)

def kind (p : Parser) : TokenKind := p.current.kind

/-- The parser after the current token. -/
def advanced (p : Parser) : Parser := { p with pos := p.pos + 1 }

def hasTokens (p : Parser) : Bool := p.pos < p.tokens.size && p.kind ≠ .eof

/-- A bound on the rounds of a loop that consumes a token in each round. -/
def rounds (p : Parser) : Nat := p.tokens.size - p.pos + 1

def head? (p : Parser) (kind : TokenKind) : Option Head :=
  if p.knowsGrammar then Head.ofKind? kind else none

def tail? (p : Parser) (kind : TokenKind) : Option Tail :=
  if p.knowsGrammar then Tail.ofKind? kind else none

def power? (p : Parser) (kind : TokenKind) : Option Power :=
  if p.knowsGrammar then Power.ofKind? kind else none

def form? (p : Parser) (kind : TokenKind) : Option Form :=
  if p.knowsGrammar then Form.ofKind? kind else none

/-- The power that binds the current token to what precedes it. -/
def power (p : Parser) : Power := (p.power? p.kind).getD .lowest

/-- Where the current token starts. -/
def position (p : Parser) : Position := p.current.span.start

/-- Where the last consumed token ends. -/
def previousEnd (p : Parser) : Position :=
  match p.pos with
  | 0 => ⟨0, p.file⟩
  | n + 1 =>
    match p.tokens[n]? with
    | some token => token.span.stop
    | none => ⟨0, p.file⟩

/-- The span from `start` to the end of the last consumed token. -/
def spanFrom (p : Parser) (start : Position) : Span := ⟨start, p.previousEnd⟩

/-- The span from the start of one node to the end of another. -/
def spanBetween (p : Parser) (left right : NodeId) : Span :=
  match p.tree.get? left, p.tree.get? right with
  | some l, some r => ⟨l.span.start, r.span.stop⟩
  | _, _ => p.spanFrom p.position

/-- The fault of the current token where something else was wanted. -/
def complaint (p : Parser) (reason : String) : Diagnostic :=
  ⟨.unexpectedBecause p.current.value reason, p.position⟩

/-- The number of blocks open around the current token. -/
def scopeDepth (p : Parser) : Nat := p.outer.length

end Parser

end StageScript

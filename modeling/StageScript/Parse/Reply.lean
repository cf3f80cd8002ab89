import StageScript.Parse.Parser

/-!
# Steps of parsing

A step takes a parser and replies with a value or a fault, and in both cases with
the parser it left behind: a failed step keeps what it consumed, opened and built.
-/

namespace StageScript

/-- The reply of a step. -/
inductive Reply (α : Type) where
  | ok (value : α) (after : Parser)
  | fail (fault : Diagnostic) (after : Parser)

/-- A step of parsing. -/
def Parse (α : Type) := Parser → Reply α

namespace Parse

instance : Monad Parse where
  pure a := fun p => .ok a p
  bind x f := fun p =>
    match x p with
    | .ok a q => f a q
    | .fail d q => .fail d q

/-- Fails without any other change. -/
def fail {α : Type} (d : Diagnostic) : Parse α := fun p => .fail d p

/-- What can be seen of the parser. -/
def look {α : Type} (f : Parser → α) : Parse α := fun p => .ok (f p) p

/-- Changes the parser. -/
def change (f : Parser → Parser) : Parse Unit := fun p => .ok () (f p)

/-- Fails at the current token, where something else was wanted. -/
def unexpected {α : Type} (reason : String) : Parse α := fun p => .fail (p.complaint reason) p

/-! ### Tokens -/

/-- Consumes the current token, whatever it is. -/
def advance : Parse Token := fun p => .ok p.current p.advanced

/-- Consumes a token of the given kind, or fails with `d`. -/
def expectOr (kind : TokenKind) (d : Diagnostic) : Parse Token := fun p =>
  if p.kind = kind then .ok p.current p.advanced else .fail d p

/-- Consumes a token of the given kind. -/
def expect (kind : TokenKind) : Parse Token := do
  expectOr kind (← look (·.complaint s!"expected {kind.name}"))

/-- Consumes a symbol. -/
def expectSymbol (s : Symbol) : Parse Unit := do
  let _ ← expect (.symbol s)

/-- Consumes a name and gives its token. -/
def expectName (context : String) : Parse Token := do
  expectOr .identifier (← look (·.complaint s!"expected identifier {context}"))

/-- Consumes a token of the given kind, if there is one, and tells so. -/
def eat (kind : TokenKind) : Parse Bool := fun p =>
  if p.kind = kind then .ok true p.advanced else .ok false p

def hasTokens : Parse Bool := look Parser.hasTokens

/-- Whether the current token is of the given kind. -/
def atKind (kind : TokenKind) : Parse Bool := look fun p => p.kind = kind

def atSymbol (s : Symbol) : Parse Bool := atKind (.symbol s)

/-! ### Nesting -/

/-- The fault of going deeper than the limit. -/
def tooDeep {α : Type} : Parse α := fun p => .fail ⟨.nestingTooDeep maxNesting, p.position⟩ p

/-- Goes one level deeper. -/
def enter : Parse Unit := fun p =>
  if maxNesting ≤ p.nesting then tooDeep p else .ok () { p with nesting := p.nesting + 1 }

/-- Comes back from one level. -/
def leave : Parse Unit := change fun p => { p with nesting := p.nesting - 1 }

/-- Takes a step one level deeper and comes back, also from a failed step. -/
def nested {α : Type} (step : Parse α) : Parse α := do
  enter
  fun p =>
    match step p with
    | .ok a q => (leave *> pure a : Parse α) q
    | .fail d q => (leave *> fail d : Parse α) q

/-! ### Nodes and declarations -/

/-- Adds a node to the tree. -/
def push (kind : NodeKind) (span : Span) : Parse NodeId := fun p =>
  .ok p.tree.next { p with tree := p.tree.push ⟨kind, span⟩ }

/-- Adds a node that reaches from `start` to the end of the last consumed token. -/
def pushFrom (start : Position) (kind : NodeKind) : Parse NodeId := do
  push kind (← look (·.spanFrom start))

/-- Declares a node under a name in the current block; `position` is where a second
declaration is reported. -/
def bindName (name : String) (id : NodeId) (position : Position) : Parse NodeId := fun p =>
  match p.table.declare? name id with
  | some table => .ok id { p with table }
  | none => .fail ⟨.alreadyDeclared name, position⟩ p

/-- Adds a definition to the tree and declares it. -/
def declare (d : Definition) (span : Span) : Parse NodeId := do
  let id ← push (.definition d) span
  bindName d.name id span.start

/-- What a lookup in the tree gives. -/
def lookup {α : Type} (f : Tree → Except Diagnostic α) : Parse α := fun p =>
  match f p.tree with
  | .ok a => .ok a p
  | .error d => .fail d p

/-- Declares a definition that is in the tree already. -/
def declareExisting (id : NodeId) : Parse NodeId := do
  let node ← lookup (·.node id)
  let d ← lookup (·.definition id)
  bindName d.name id node.span.start

/-- Opens the scope of a block. -/
def pushScope : Parse Unit := change fun p =>
  { p with table := NameTable.empty, outer := p.table :: p.outer }

/-- Closes the innermost scope and gives its table.  The outermost scope is emptied instead. -/
def popScope : Parse NameTable := fun p =>
  match p.outer with
  | [] => .ok p.table { p with table := NameTable.empty }
  | table :: outer => .ok p.table { p with table, outer }

end Parse

end StageScript

import StageScript.Source.Position
import StageScript.Token.Kind

/-!
# Tokens

A token is a kind, a value and the span it was read from.  For a literal the value
is what it denotes; for everything else it is the text that tells it from others of
its kind.
-/

namespace StageScript

structure Token where
  kind : TokenKind
  value : String
  span : Span
  deriving DecidableEq, Inhabited

namespace Token

/-- The token that ends a source at a position. -/
def endAt (p : Position) : Token := ⟨.eof, "EOF", ⟨p, p⟩⟩

/-- The token that ends a source of `size` bytes. -/
def atEnd (file : String) (size : Nat) : Token := endAt (.behind file size)

/-- The kind and the value of a token, on three lines. -/
def text (t : Token) : String :=
  "Token \x7b\nkind: " ++ t.kind.name ++ ",\nvalue: " ++ t.value ++ "\x7d"

end Token

end StageScript

import StageScript.Number.Numeral
import StageScript.Text.Blank
import StageScript.Token.Kind

/-!
# Patterns of tokens

The text of a script is cut by patterns.  A pattern says how many characters it
finds at the start of a text, and what token the found text is, if any: blanks and
comments are found and give none.  `Pattern.all` lists the patterns in the order
they are tried.
-/

namespace StageScript

/-- A class of texts that stand together at the start of a source. -/
inductive Pattern where
  | name | number
  | blanks | lineComment | blockComment
  | string | char
  | entryRoutine | header
  | symbol (s : Symbol)
  deriving DecidableEq, Inhabited

namespace Pattern

/-- A character that can start a name. -/
def isNameStart (c : Char) : Bool :=
  ('a' ≤ c && c ≤ 'z') || ('A' ≤ c && c ≤ 'Z') || c = '_'

/-- A character that can go on a name. -/
def isNameChar (c : Char) : Bool := isNameStart c || Numeral.isDigit c

/-- The length of a nonempty run of characters satisfying `p`. -/
def runLength? (p : Char → Bool) (cs : List Char) : Option Nat :=
  match (cs.takeWhile p).length with
  | 0 => none
  | n + 1 => some (n + 1)

def nameLength? : List Char → Option Nat
  | [] => none
  | c :: cs => if isNameStart c then some (1 + (cs.takeWhile isNameChar).length) else none

/-- The length of a point and the digits after it; zero if there is no such fraction. -/
def fractionLength : List Char → Nat
  | '.' :: cs => ((runLength? Numeral.isDigit cs).map (1 + ·)).getD 0
  | _ => 0

def numberLength? (cs : List Char) : Option Nat :=
  (runLength? Numeral.isDigit cs).map fun n => n + fractionLength (cs.drop n)

def lineCommentLength? : List Char → Option Nat
  | '/' :: '/' :: cs => some (2 + (cs.takeWhile (· ≠ '\n')).length)
  | _ => none

/-- The length of a text up to and with the first end of a comment. -/
def commentEnd? : List Char → Option Nat
  | [] => none
  | '*' :: '/' :: _ => some 2
  | _ :: cs => (commentEnd? cs).map (1 + ·)

def blockCommentLength? : List Char → Option Nat
  | '/' :: '*' :: cs => (commentEnd? cs).map (2 + ·)
  | _ => none

/-- The length of a text up to and with the first double quote that no backslash escapes.  A
backslash does not escape a newline. -/
def stringEnd? : List Char → Option Nat
  | [] => none
  | '"' :: _ => some 1
  | '\\' :: [] => none
  | '\\' :: c :: cs => if c = '\n' then none else (stringEnd? cs).map (2 + ·)
  | _ :: cs => (stringEnd? cs).map (1 + ·)

def stringLength? : List Char → Option Nat
  | '"' :: cs => (stringEnd? cs).map (1 + ·)
  | _ => none

def charLength? : List Char → Option Nat
  | '\'' :: '\\' :: c :: '\'' :: _ => if c = '\n' then none else some 4
  | '\'' :: c :: '\'' :: _ => if c = '\'' ∨ c = '\\' then none else some 3
  | _ => none

def entryRoutineLength? : List Char → Option Nat
  | '@' :: cs => (nameLength? cs).map (1 + ·)
  | _ => none

/-- The length of the parameters of a header, in brackets on one line; zero for none. -/
def headerParamsLength : List Char → Nat
  | '[' :: cs =>
    let n := (cs.takeWhile fun c => c ≠ ']' && c ≠ '\n').length
    if (cs.drop n).head? = some ']' then n + 2 else 0
  | _ => 0

def headerLength? : List Char → Option Nat
  | '#' :: cs => (nameLength? cs).map fun n => 1 + n + headerParamsLength (cs.drop n)
  | _ => none

def textLength? (text cs : List Char) : Option Nat :=
  if text.isPrefixOf cs then some text.length else none

/-- How many characters a pattern finds at the start of a text, if it matches there. -/
def length? : Pattern → List Char → Option Nat
  | name => nameLength?
  | number => numberLength?
  | blanks => runLength? Text.isBlank
  | lineComment => lineCommentLength?
  | blockComment => blockCommentLength?
  | string => stringLength?
  | char => charLength?
  | entryRoutine => entryRoutineLength?
  | header => headerLength?
  | symbol s => textLength? s.sought

/-- The value of the escape of a character. -/
def unescapeChar : Char → Char
  | 'n' => '\n'
  | 't' => '\t'
  | 'r' => '\r'
  | '0' => '\x00'
  | c => c

/-- The text that the inside of a literal denotes.  A backslash at its end stands for itself. -/
def unescape : List Char → List Char
  | [] => []
  | '\\' :: [] => ['\\']
  | '\\' :: c :: cs => unescapeChar c :: unescape cs
  | c :: cs => c :: unescape cs

/-- A literal without its first and its last character. -/
def inside (cs : List Char) : List Char := (cs.drop 1).dropLast

/-- The kind and the value of the token that a found text is. -/
def token? (found : List Char) : Pattern → Option (TokenKind × String)
  | name => some (TokenKind.ofWord (String.ofList found), String.ofList found)
  | number => some (.number, String.ofList found)
  | blanks => none
  | lineComment => none
  | blockComment => none
  | string => some (.string, String.ofList (unescape (inside found)))
  | char => some (.char, String.ofList (unescape (inside found)))
  | entryRoutine => some (.entryRoutine, String.ofList (found.drop 1))
  | header => some (.header, String.ofList (found.drop 1))
  | symbol s => some (.symbol s, s.text)

/-- What a scan goes on behind, where a pattern found a text.  A symbol brings its own text. -/
def taken (found : List Char) : Pattern → List Char
  | symbol s => s.text.toList
  | _ => found

/-- Every pattern, in the order they are tried. -/
def all : List Pattern :=
  [name, number, blanks, lineComment, blockComment, string, char, entryRoutine, header]
    ++ Symbol.all.map symbol

/-- The first pattern that matches at the start of a text, and its length. -/
def first? (cs : List Char) : Option (Pattern × Nat) :=
  all.findSome? fun pattern => (pattern.length? cs).map fun n => (pattern, n)

end Pattern

end StageScript

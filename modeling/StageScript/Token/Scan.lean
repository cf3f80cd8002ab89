import StageScript.Diagnostic.Basic
import StageScript.Source.Cursor
import StageScript.Token.Basic
import StageScript.Token.Pattern

/-!
# From source to tokens

`scan` cuts a text by the first matching pattern, again and again, and stops where
none matches.  `tokenize` is the whole reading of a source: its tokens and the end
token, or a diagnostic at the place where the cutting stopped.
-/

namespace StageScript

/-- What a scan produced: the tokens, the position it stopped at, and the character there if it is
not the end. -/
structure Scan where
  tokens : List Token
  stop : Position
  unread : Option Char
  deriving DecidableEq, Inhabited

namespace Scan

/-- The scan with one more token before it. -/
def cons (token : Option Token) (s : Scan) : Scan := { s with tokens := token.toList ++ s.tokens }

end Scan

/-- The tokens of the text that remains at a cursor. -/
def scan (cursor : Cursor) : List Char → Scan
  | [] => ⟨[], cursor.position, none⟩
  | c :: cs =>
    match Pattern.first? (c :: cs) with
    | none => ⟨[], cursor.position, some c⟩
    | some (pattern, n) =>
      let found := c :: cs.take (n - 1)
      let taken := pattern.taken found
      let size := Text.byteLength taken
      let token := (pattern.token? found).map fun (kind, value) =>
        ⟨kind, value, cursor.spanOf size⟩
      (scan (cursor.advance size) (cs.drop (taken.length - 1))).cons token
termination_by cs => cs.length
decreasing_by simp only [List.length_drop, List.length_cons]; omega

/-- The name of a source that has none. -/
def defaultFile : String := "shell"

/-- The tokens of a source, the end token last. -/
def tokenize (source : String) (file : String) : Except Diagnostic (List Token) :=
  let cursor := Cursor.start source file
  let s := scan cursor cursor.remainder
  match s.unread with
  | some c => .error ⟨.unrecognised (String.ofList [c]), s.stop⟩
  | none => .ok (s.tokens ++ [Token.endAt s.stop])

end StageScript

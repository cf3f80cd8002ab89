/-!
# Kinds of tokens

A token is a literal, a name, a routine or header mark, one of the fixed symbols,
a reserved word, or the end of the source.
-/

namespace StageScript

/-- The symbols of fixed spelling. -/
inductive Symbol where
  | openAbs | closeAbs
  | openBracket | closeBracket
  | openCurly | closeCurly
  | openParen | closeParen
  | assign | equals | bang | notEquals
  | less | lessEquals | greater | greaterEquals
  | bars | ampersands
  | dots | semicolon | comma
  | plusPlus | minusMinus
  | plusEquals | minusEquals | starEquals | slashEquals | percentEquals | caretEquals
  | tildeEquals
  | plus | dash | star | slash | percent | caret | tilde
  deriving DecidableEq, Inhabited

namespace Symbol

/-- The characters that a symbol is found by. -/
def sought : Symbol → List Char
  | openAbs => ['(', '|']
  | closeAbs => ['|', ')']
  | openBracket => ['[']
  | closeBracket => [']']
  | openCurly => ['\x7b']
  | closeCurly => ['\x7d']
  | openParen => ['(']
  | closeParen => [')']
  | assign => ['=']
  | equals => ['=', '=']
  | bang => ['!']
  | notEquals => ['!', '=']
  | less => ['<']
  | lessEquals => ['<', '=']
  | greater => ['>']
  | greaterEquals => ['>', '=']
  | bars => ['|', '|']
  | ampersands => ['&', '&']
  | dots => ['.', '.']
  | semicolon => [';']
  | comma => [',']
  | plusPlus => ['+', '+']
  | minusMinus => ['-', '-']
  | plusEquals => ['+', '=']
  | minusEquals => ['-', '=']
  | starEquals => ['*', '=']
  | slashEquals => ['/', '=']
  | percentEquals => ['%', '=']
  | caretEquals => ['^', '=']
  | tildeEquals => ['~', '=']
  | plus => ['+']
  | dash => ['-']
  | star => ['*']
  | slash => ['/']
  | percent => ['%']
  | caret => ['^']
  | tilde => ['~']

/-- How a symbol is written: its value as a token, and what a scan goes on behind. -/
def text : Symbol → String
  | openAbs => "(|"
  | closeAbs => "|)"
  | openBracket => "["
  | closeBracket => "]"
  | openCurly => "\x7b"
  | closeCurly => "\x7d"
  | openParen => "("
  | closeParen => ")"
  | assign => "="
  | equals => "=="
  | bang => "!"
  | notEquals => "!="
  | less => "<"
  | lessEquals => "<="
  | greater => ">"
  | greaterEquals => ">="
  | bars => "||"
  | ampersands => "&&"
  | dots => ".."
  | semicolon => ";"
  | comma => ","
  | plusPlus => "++"
  | minusMinus => "--"
  | plusEquals => "+="
  | minusEquals => "-="
  | starEquals => "*="
  | slashEquals => "/="
  | percentEquals => "%="
  | caretEquals => "^="
  | tildeEquals => "~="
  | plus => "+"
  | dash => "-"
  | star => "*"
  | slash => "/"
  | percent => "%"
  | caret => "^"
  | tilde => "~"

/-- A symbol is found by what it is written as. -/
theorem toList_text (s : Symbol) : s.text.toList = s.sought := by cases s <;> rfl

/-- What messages call a symbol. -/
def name : Symbol → String
  | openAbs => "OpenAbs"
  | closeAbs => "CloseAbs"
  | openBracket => "OpenBracket"
  | closeBracket => "CloseBracket"
  | openCurly => "OpenCurly"
  | closeCurly => "CloseCurly"
  | openParen => "OpenParen"
  | closeParen => "CloseParen"
  | assign => "Assignment"
  | equals => "Equals"
  | bang => "Not"
  | notEquals => "NotEquals"
  | less => "Less"
  | lessEquals => "LessEquals"
  | greater => "Greater"
  | greaterEquals => "GreaterEquals"
  | bars => "Or"
  | ampersands => "And"
  | dots => "DotDot"
  | semicolon => "Semicolon"
  | comma => "Comma"
  | plusPlus => "PlusPlus"
  | minusMinus => "MinusMinus"
  | plusEquals => "PlusEquals"
  | minusEquals => "MinusEquals"
  | starEquals => "StarEquals"
  | slashEquals => "SlashEquals"
  | percentEquals => "PercentEquals"
  | caretEquals => "CaretEquals"
  | tildeEquals => "TildeEquals"
  | plus => "Plus"
  | dash => "Dash"
  | star => "Star"
  | slash => "Slash"
  | percent => "Percent"
  | caret => "Caret"
  | tilde => "Tilde"

/-- Every symbol, each before the symbols that begin it. -/
def all : List Symbol :=
  [openAbs, bars, closeAbs, openBracket, closeBracket, openCurly, closeCurly, openParen,
    closeParen, equals, notEquals, bang, assign, lessEquals, less, greaterEquals, greater,
    ampersands, dots, semicolon, comma, plusPlus, minusMinus, plusEquals, minusEquals,
    starEquals, slashEquals, percentEquals, caretEquals, tildeEquals, plus, dash, star, slash,
    percent, caret, tilde]

end Symbol

/-- The reserved words. -/
inductive Keyword where
  | letWord | functionWord | subWord | taskWord
  | returnWord | yieldWord | breakWord
  | ifWord | elseWord
  | loopWord | timesWord | whileWord | ascentWord | descentWord | inWord
  | alternativeWord | caseWord | othersWord
  | localWord
  deriving DecidableEq, Inhabited

namespace Keyword

/-- What messages call a reserved word. -/
def name : Keyword → String
  | letWord => "Let"
  | functionWord => "Function"
  | subWord => "Sub"
  | taskWord => "Task"
  | returnWord => "Return"
  | yieldWord => "Yield"
  | breakWord => "Break"
  | ifWord => "If"
  | elseWord => "Else"
  | loopWord => "Loop"
  | timesWord => "Times"
  | whileWord => "While"
  | ascentWord => "Ascent"
  | descentWord => "Descent"
  | inWord => "In"
  | alternativeWord => "Alternative"
  | caseWord => "Case"
  | othersWord => "Others"
  | localWord => "Local"

def all : List Keyword :=
  [letWord, functionWord, subWord, taskWord, returnWord, yieldWord, breakWord, ifWord, elseWord,
    loopWord, timesWord, whileWord, ascentWord, descentWord, inWord, alternativeWord, caseWord,
    othersWord, localWord]

/-- The reserved spellings.  Declarations have two. -/
def spellings : List (String × Keyword) :=
  [("let", letWord), ("var", letWord), ("function", functionWord), ("sub", subWord),
    ("task", taskWord), ("return", returnWord), ("yield", yieldWord), ("break", breakWord),
    ("if", ifWord), ("else", elseWord), ("loop", loopWord), ("times", timesWord),
    ("while", whileWord), ("ascent", ascentWord), ("descent", descentWord), ("in", inWord),
    ("alternative", alternativeWord), ("case", caseWord), ("others", othersWord),
    ("local", localWord)]

/-- The reserved word spelled `s`. -/
def ofSpelling? (s : String) : Option Keyword := spellings.lookup s

/-- The spellings of a reserved word. -/
def texts (k : Keyword) : List String :=
  (spellings.filter fun entry => entry.2 == k).map Prod.fst

end Keyword

/-- The kind of a token. -/
inductive TokenKind where
  /-- The end of the source. -/
  | eof
  | number | char | string
  | identifier
  /-- A routine's name behind its `@`. -/
  | entryRoutine
  /-- A header line behind its `#`. -/
  | header
  | symbol (s : Symbol)
  | keyword (k : Keyword)
  deriving DecidableEq, Inhabited

namespace TokenKind

/-- What messages call a kind of token. -/
def name : TokenKind → String
  | eof => "EOF"
  | number => "Number"
  | char => "Char"
  | string => "String"
  | identifier => "Identifier"
  | entryRoutine => "EntryRoutine"
  | header => "Header"
  | symbol s => s.name
  | keyword k => k.name

def all : List TokenKind :=
  [eof, number, char, string, identifier, entryRoutine, header] ++ Symbol.all.map symbol
    ++ Keyword.all.map keyword

/-- The kind of token that messages call `s`. -/
def ofName? (s : String) : Option TokenKind := all.find? fun kind => kind.name == s

/-- The kind of a name-shaped token. -/
def ofWord (s : String) : TokenKind :=
  match Keyword.ofSpelling? s with
  | some k => keyword k
  | none => identifier

end TokenKind

end StageScript

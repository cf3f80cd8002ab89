import StageScript.Source.Position
import StageScript.Text.Quoted

/-!
# Diagnostics

A diagnostic is a cause and the position it was found at.  The cause fixes what is
said: a name for the kind of fault, a message, and a tip on how to mend it.
-/

namespace StageScript

/-- What is wrong with a script. -/
inductive Cause where
  /-- No token starts with this character. -/
  | unrecognised (token : String)
  /-- A token where none of its kind can stand. -/
  | unexpected (token : String)
  /-- A token where none of its kind can stand, and what was wanted there. -/
  | unexpectedBecause (token reason : String)
  /-- A number token whose text is no numeral. -/
  | badNumber (token : String)
  /-- Blocks and expressions nested more than `limit` levels deep. -/
  | nestingTooDeep (limit : Nat)
  /-- A second declaration of a name in one scope. -/
  | alreadyDeclared (name : String)
  /-- A name that no enclosing scope declares. -/
  | undefinedName (name : String)
  /-- A call with the wrong number of arguments. -/
  | wrongArgumentCount (name : String) (expected received : Nat)
  /-- A routine without value, used as an expression. -/
  | routineInExpression (name : String)
  /-- An assignment to what is no variable. -/
  | assignToNonVariable (name : String)
  | returnValueOutsideFunction
  | returnOutsideRoutine
  | breakOutsideLoop
  /-- A tree that no script has. -/
  | malformedTree (reason : String)
  deriving DecidableEq, Inhabited

namespace Cause

/-- The name of the kind of fault. -/
def name : Cause → String
  | unrecognised _ => "UnrecognisedToken"
  | unexpected _ => "UnexpectedToken"
  | unexpectedBecause _ _ => "UnexpectedTokenDetailed"
  | badNumber _ => "NumberParseError"
  | nestingTooDeep _ => "NestingTooDeep"
  | alreadyDeclared _ => "DefinitionAlreadyDeclared"
  | undefinedName _ => "UndefinedName"
  | wrongArgumentCount _ _ _ => "WrongArgumentCount"
  | routineInExpression _ => "RoutineInExpression"
  | assignToNonVariable _ => "AssignToNonVariable"
  | returnValueOutsideFunction => "ReturnValueOutsideFunction"
  | returnOutsideRoutine => "ReturnOutsideRoutine"
  | breakOutsideLoop => "BreakOutsideLoop"
  | malformedTree _ => "MalformedTree"

/-- The fault in words. -/
def message : Cause → String
  | unrecognised token => "unrecognised token: " ++ Text.quote token
  | unexpected token => "unexpected token: " ++ Text.quote token
  | unexpectedBecause token reason =>
    "unexpected token (" ++ Text.quote reason ++ "): " ++ Text.quote token
  | badNumber token => "error parsing number: " ++ Text.quote token
  | nestingTooDeep limit => s!"nesting deeper than {limit} levels"
  | alreadyDeclared name => Text.quote name ++ " already declared in this scope"
  | undefinedName name => Text.quote name ++ " is not defined"
  | wrongArgumentCount name expected received =>
    "wrong number of arguments for " ++ Text.quote name
      ++ s!": expected {expected}, received {received}"
  | routineInExpression name =>
    Text.quote name ++ " has no value and cannot be used in an expression"
  | assignToNonVariable name => "cannot assign to " ++ Text.quote name
  | returnValueOutsideFunction => "return with a value outside of a function"
  | returnOutsideRoutine => "return outside of a routine"
  | breakOutsideLoop => "break outside of a loop"
  | malformedTree reason => "malformed syntax tree: " ++ reason

/-- How to mend the fault. -/
def tip? : Cause → Option String
  | unrecognised _ => none
  | unexpected token => some s!"Unexpected token: `{token}`, did you miss a semicolon?"
  | unexpectedBecause token reason => some s!"Unexpected token: `{token}`, {reason}"
  | badNumber token => some s!"Invalid number: `{token}`"
  | nestingTooDeep limit =>
    some s!"Blocks and expressions may nest at most {limit} levels deep"
  | alreadyDeclared name => some s!"`{name}` is already declared in this scope"
  | undefinedName name => some s!"`{name}` is not defined"
  | wrongArgumentCount name expected received =>
    some s!"`{name}` expects {expected} arguments, received {received}"
  | routineInExpression name => some s!"`{name}` has no value, call it as a statement instead"
  | assignToNonVariable name => some s!"`{name}` is not a variable"
  | returnValueOutsideFunction => some "Only a function can return a value"
  | returnOutsideRoutine => some "`return` must be inside a function, sub, task or routine"
  | breakOutsideLoop => some "`break` must be inside a loop"
  | malformedTree _ => none

/-- A malformed tree cannot be trusted with any other diagnostic. -/
def isFatal : Cause → Bool
  | malformedTree _ => true
  | _ => false

end Cause

/-- A fault and where it was found. -/
structure Diagnostic where
  cause : Cause
  position : Position
  deriving DecidableEq, Inhabited

namespace Diagnostic

/-- The fault in words, with its position. -/
def message (d : Diagnostic) : String := d.cause.message ++ " at " ++ d.position.text

def isFatal (d : Diagnostic) : Bool := d.cause.isFatal

end Diagnostic

end StageScript

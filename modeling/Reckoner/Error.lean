/-
  Reckoner.Error

  What can go wrong with an expression, and how it is worded.

  Arithmetic never fails: a division by zero or the logarithm of zero is an infinity or a NaN.
-/

namespace Reckoner

/-- Why a text cannot be split into tokens. Positions count characters. -/
inductive LexError
  | malformedNumber (literal : String) (position : Nat)
  | unrecognizedIdentifier (name : String) (position : Nat)
  | unexpectedCharacter (char : Char) (position : Nat)
  deriving DecidableEq, Repr

namespace LexError

/-- Where the fault is. -/
def position : LexError → Nat
  | .malformedNumber _ position => position
  | .unrecognizedIdentifier _ position => position
  | .unexpectedCharacter _ position => position

/-- The wording of the error. -/
def message : LexError → String
  | .malformedNumber literal position =>
    "malformed numeric literal '" ++ literal ++ "' at position " ++ toString position
  | .unrecognizedIdentifier name position =>
    "unrecognized identifier '" ++ name ++ "' at position " ++ toString position
  | .unexpectedCharacter char position =>
    "unexpected character '" ++ String.singleton char ++ "' at position " ++ toString position

end LexError

/-- Why an evaluation gives no value. -/
inductive EvalError
  /-- The expression, or the body of a function, cannot be split into tokens. -/
  | lexical (error : LexError)
  /-- A token stands where none of its kind may. -/
  | unexpectedToken (found : String) (position : Nat)
  | unknownIdentifier (name : String)
  /-- A text that is no name was given as one. -/
  | invalidIdentifier (name : String)
  /-- The value of a variable or the body of a function was asked for and not given. -/
  | unanswered (name : String) (reason : String)
  /-- More factors would be open at once than the limit. -/
  | nestingLimit (limit : Nat)
  deriving DecidableEq, Repr

namespace EvalError

/-- The wording of the error. -/
def message : EvalError → String
  | .lexical error => error.message
  | .unexpectedToken found position =>
    "unexpected token '" ++ found ++ "' at position " ++ toString position
  | .unknownIdentifier name => "unknown identifier '" ++ name ++ "'"
  | .invalidIdentifier name => "invalid identifier '" ++ name ++ "'"
  | .unanswered name reason => "resolver failed for '" ++ name ++ "': " ++ reason
  | .nestingLimit limit => "expression nesting exceeds the limit of " ++ toString limit

end EvalError

end Reckoner

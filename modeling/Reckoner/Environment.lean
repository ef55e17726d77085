/-
  Reckoner.Environment

  The names an expression may mention, and their values.

  A name that has an entry is known; a known name without a value is declared but unbound.
  The constants `pi` and `e` are known from the start and cannot be declared anew, so they are
  always bound; they may be bound to other values.
-/
import Reckoner.Error
import Reckoner.KnownNames
import Reckoner.NameMap
import Reckoner.Unicode.Alphabetic

namespace Reckoner

/-- Whether a text can be a name: it is not empty, and all of it is alphabetic. -/
def isIdentifier (name : String) : Bool :=
  name ≠ "" && name.toList.all Unicode.isAlphabetic

/-- The known names, each with its value if it is bound. -/
structure Environment where
  entries : NameMap (Option Float)
  deriving DecidableEq

namespace Environment

/-- The names that are bound from the start, with their values. -/
def constants : List (String × Float) :=
  [("pi", Float.ofBits 0x400921FB54442D18), ("e", Float.ofBits 0x4005BF0A8B145769)]

/-- The names that every new expression finds declared and unbound. -/
def conventional : List String :=
  ["x", "y", "z"]

/-- Whether the name is one of the constants. -/
def isConstant (name : String) : Bool :=
  constants.any (·.1 = name)

/-- The environment in which only the constants are known. -/
def initial : Environment :=
  ⟨.ofList (constants.map fun (name, value) => (name, some value))⟩

instance : Inhabited Environment := ⟨initial⟩

/-! ## Questions -/

/-- Whether the name has an entry. -/
def isKnown (environment : Environment) (name : String) : Bool :=
  environment.entries.contains name

/-- The value of the name, if it is known and bound. -/
def value? (environment : Environment) (name : String) : Option Float :=
  (environment.entries.find? name).join

/-- Whether the name has a value. -/
def isBound (environment : Environment) (name : String) : Bool :=
  (environment.value? name).isSome

/-- The known names, in ascending order. -/
def names (environment : Environment) : List String :=
  environment.entries.names

/-- The number of characters of the longest known name. -/
def longestName (environment : Environment) : Nat :=
  (environment.names.map String.length).max?.getD 0

/-- The known names, as the lexer is told of them. -/
def knownNames (environment : Environment) : KnownNames where
  isKnown := environment.isKnown
  longest := environment.longestName

/-! ## Changes -/

/-- The environment with the entry of one name set. -/
def set (environment : Environment) (name : String) (value : Option Float) : Environment :=
  ⟨environment.entries.insert name value⟩

/-- Makes a name known and unbound, whatever it was before. A constant stays as it is, and a text
that is no name is refused. -/
def declare (environment : Environment) (name : String) : Except EvalError Environment :=
  if isIdentifier name then
    .ok (if isConstant name then environment else environment.set name none)
  else .error (.invalidIdentifier name)

/-- Makes the conventional names known and unbound. -/
def resetConventional (environment : Environment) : Environment :=
  conventional.foldl (fun environment name => environment.set name none) environment

/-- Gives a known name a value; an unknown one is left alone. -/
def bind (environment : Environment) (name : String) (value : Float) : Environment :=
  if environment.isKnown name then environment.set name (some value) else environment

end Environment

end Reckoner

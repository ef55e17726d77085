/-
  Reckoner.KnownNames

  The names that a reader of expressions takes for variables.
-/

namespace Reckoner

/-- The names taken for variables, and a bound on their length: no longer name is looked for.

The bound is the supplier's word. One that is too small hides the longer names. -/
structure KnownNames where
  isKnown : String → Bool
  longest : Nat

namespace KnownNames

/-- The names with one more. -/
def adding (names : KnownNames) (name : String) : KnownNames where
  isKnown other := other = name || names.isKnown other
  longest := max name.length names.longest

/-- The members of a list, under a bound of the caller's choice. -/
def ofList (members : List String) (longest : Nat) : KnownNames where
  isKnown name := members.contains name
  longest := longest

end KnownNames

end Reckoner

/-
  Reckoner.Unicode.Ranges

  Sets of characters given as lists of code point ranges.
-/

namespace Reckoner.Unicode

/-- Whether a character lies in one of the ranges, each given by its two ends. -/
def inRanges (ranges : List (Nat × Nat)) (c : Char) : Bool :=
  ranges.any fun range => range.1 ≤ c.toNat && c.toNat ≤ range.2

end Reckoner.Unicode

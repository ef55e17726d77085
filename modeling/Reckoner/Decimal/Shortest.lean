/-
  Reckoner.Decimal.Shortest

  The shortest decimal that reads back as a given binary64 number.

  The exact value of a number is a decimal of finitely many digits. Dropping its last digits
  gives grids of decimals, the fewer digits are kept the coarser. The search tries the coarsest
  grid first and looks at the two neighbours of the exact value on it; the exact value itself,
  with nothing dropped, ends it.
-/
import Reckoner.Decimal.Basic

namespace Reckoner.Decimal

/-- The decimal without its last `dropped` digits, rounded down. -/
def below (d : Decimal) (dropped : Nat) : Decimal :=
  ⟨d.digits / 10 ^ dropped, d.exponent + dropped⟩

/-- The next decimal after `below` on the same grid. -/
def above (d : Decimal) (dropped : Nat) : Decimal :=
  ⟨d.digits / 10 ^ dropped + 1, d.exponent + dropped⟩

/-- The neighbour of `d` on the grid without its last `dropped` digits that has the given
magnitude: of two the nearer one, and the upper one of two equally near. -/
def neighbour? (d : Decimal) (magnitude dropped : Nat) : Option Decimal :=
  if (d.below dropped).magnitude = magnitude then
    if (d.above dropped).magnitude = magnitude ∧
        10 ^ dropped ≤ 2 * (d.digits % 10 ^ dropped) then
      some (d.above dropped)
    else
      some (d.below dropped)
  else if (d.above dropped).magnitude = magnitude then
    some (d.above dropped)
  else
    none

/-- The first neighbour found with at most `dropped` digits left out, and `d` if there is none. -/
def coarsest (d : Decimal) (magnitude : Nat) : Nat → Decimal
  | 0 => d
  | dropped + 1 => (d.neighbour? magnitude (dropped + 1)).getD (d.coarsest magnitude dropped)

/-- The decimal with the fewest digits among those nearest to the finite `magnitude`; of several
the one nearest to its exact value. -/
def shortest (magnitude : Nat) : Decimal :=
  let d := exact magnitude
  d.coarsest magnitude (digitCount d.digits - 1)

end Reckoner.Decimal

/-
  Reckoner.Decimal.Basic

  Decimals `digits * 10 ^ exponent` and the binary64 number nearest to one.
-/
import Reckoner.Binary64

namespace Reckoner

/-- The decimal `digits * 10 ^ exponent`. -/
structure Decimal where
  digits : Nat
  exponent : Int
  deriving DecidableEq, Repr

namespace Decimal

/-- How many digits a number is written with. -/
def digitCount (n : Nat) : Nat :=
  (Nat.toDigits 10 n).length

/-- The magnitude of the binary64 number nearest to the decimal.

With `point` digits before the point a positive decimal is at least `10 ^ (point - 1)` and less
than `10 ^ point`. The binary64 numbers end before `10 ^ 309` and half of the least is above
`10 ^ -324`, so the two bounds only spare powers of ten that could not change the answer. -/
def magnitude (d : Decimal) : Nat :=
  let point := (digitCount d.digits : Int) + d.exponent
  if d.digits = 0 then 0
  else if 320 < point then Binary64.infinity
  else if point < -330 then 0
  else Binary64.nearest (d.digits * 10 ^ d.exponent.toNat) (10 ^ (-d.exponent).toNat)

/-- The exact value of a finite magnitude: a unit is `5 ^ 1074 * 10 ^ -1074`. -/
def exact (magnitude : Nat) : Decimal :=
  ⟨Binary64.units magnitude * 5 ^ Binary64.unitExponent, -Binary64.unitExponent⟩

end Decimal

end Reckoner

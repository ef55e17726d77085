/-
  Reckoner.Binary64

  The binary64 numbers as natural numbers, for exact conversion to and from decimals.

  A number without its sign is the low 63 bits of its pattern, here called its magnitude;
  magnitudes are ordered as the numbers are. A finite magnitude denotes a whole number of
  units, the unit being the least positive number `2 ^ -1074`. So rounding to the nearest
  number (`nearest`) and decoding (`units`) need no fractions and no negative exponents.
-/

namespace Reckoner

/-- Powers of natural numbers are those of the core library, also beside a library with its own. -/
@[default_instance 20000]
scoped instance (priority := high) corePow : Pow Nat Nat := instPowNat

namespace Binary64

/-- The unit is `1 / 2 ^ unitExponent`, the least positive number. -/
def unitExponent : Nat := 1074

/-- The magnitude of infinity; every greater one is a NaN. -/
def infinity : Nat := 2047 * 2 ^ 52

/-! ## Decoding -/

/-- The low 63 bits of a number's pattern. -/
def magnitude (x : Float) : Nat :=
  x.toBits.toNat % 2 ^ 63

/-- Whether the sign bit is set; so it is for `-0` too. -/
def isNegative (x : Float) : Bool :=
  2 ^ 63 ≤ x.toBits.toNat

/-- The significand of a finite magnitude: 53 bits with the hidden one, fewer below `2 ^ -1022`. -/
def significand (magnitude : Nat) : Nat :=
  if magnitude < 2 ^ 52 then magnitude else 2 ^ 52 + magnitude % 2 ^ 52

/-- How often the significand is doubled, counted from the least exponent. -/
def doublings (magnitude : Nat) : Nat :=
  magnitude / 2 ^ 52 - 1

/-- The value of a finite magnitude, in units. -/
def units (magnitude : Nat) : Nat :=
  significand magnitude * 2 ^ doublings magnitude

/-! ## Rounding -/

/-- The whole number nearest to `num / den`; of two equally near ones the even one. -/
def roundHalfEven (num den : Nat) : Nat :=
  let floor := num / den
  let rest := num % den
  if 2 * rest < den then floor
  else if den < 2 * rest then floor + 1
  else floor + floor % 2

/-- The magnitude nearest to `num / den`, ties to an even significand, too great ones to infinity.

The quotient is scaled to units and rounded to 53 bits above the smallest exponent that fits.
The sum puts the two fields together: a significand that rounding carries to `2 ^ 53` raises
the exponent by one of itself, and the greatest ones run into infinity. -/
def nearest (num den : Nat) : Nat :=
  let scaled := num * 2 ^ unitExponent
  let doublings := (scaled / den).log2 - 52
  min infinity (roundHalfEven scaled (den * 2 ^ doublings) + doublings * 2 ^ 52)

/-- The number of a magnitude, without a sign. -/
def ofMagnitude (magnitude : Nat) : Float :=
  Float.ofBits (UInt64.ofNat magnitude)

end Binary64

end Reckoner

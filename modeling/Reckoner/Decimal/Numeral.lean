/-
  Reckoner.Decimal.Numeral

  How numbers are written and read.

  `Numeral.ofFloat` writes the fewest digits that read back, always in positional notation:
  no exponent, no point in a whole number, `-0` for negative zero, and the words `NaN`, `inf`
  and `-inf`. `Numeral.read` takes more: a leading plus, a point without digits on one of its
  sides, an exponent, and the words in any case.
-/
import Reckoner.Decimal.Shortest

namespace Reckoner

/-- Why a text is no numeral. -/
inductive NumeralError
  | empty
  | invalid
  deriving DecidableEq, Repr

namespace NumeralError

/-- The wording of the error. -/
def message : NumeralError → String
  | .empty => "cannot parse float from empty string"
  | .invalid => "invalid float literal"

end NumeralError

namespace Numeral

/-! ## Writing -/

/-- A list without the zeros at its end. -/
def dropTrailingZeros (digits : List Char) : List Char :=
  (digits.reverse.dropWhile (· == '0')).reverse

/-- A decimal in positional notation. The fraction has no trailing zeros, and if nothing is left
of it there is no point; there is always a digit before the point. -/
def positional (d : Decimal) : List Char :=
  let digits := Nat.toDigits 10 d.digits
  if 0 ≤ d.exponent then
    digits ++ List.replicate d.exponent.toNat '0'
  else
    let places := (-d.exponent).toNat
    let padded := List.replicate (places + 1 - digits.length) '0' ++ digits
    let whole := padded.take (padded.length - places)
    match dropTrailingZeros (padded.drop (padded.length - places)) with
    | [] => whole
    | fraction => whole ++ '.' :: fraction

/-- A number as it is printed. -/
def ofFloat (x : Float) : String :=
  let magnitude := Binary64.magnitude x
  if Binary64.infinity < magnitude then "NaN"
  else
    let sign := if Binary64.isNegative x then "-" else ""
    if magnitude = Binary64.infinity then sign ++ "inf"
    else sign ++ String.ofList (positional (Decimal.shortest magnitude))

/-! ## Reading -/

/-- An exponent: an optional sign and digits, with nothing after them. -/
def readExponent (text : List Char) : Option Int :=
  match text with
  | '-' :: digits => (unsigned digits).map fun n => -(n : Int)
  | '+' :: digits => (unsigned digits).map Int.ofNat
  | digits => (unsigned digits).map Int.ofNat
where
  /-- The value of one or more digits. -/
  unsigned (digits : List Char) : Option Nat :=
    if digits ≠ [] ∧ digits.all Char.isDigit then some (Nat.ofDigitChars 10 digits 0) else none

/-- Digits with an optional point among them and an optional exponent after them. -/
def readDecimal (text : List Char) : Option Decimal :=
  let whole := text.takeWhile Char.isDigit
  let (fraction, rest) :=
    match text.dropWhile Char.isDigit with
    | '.' :: rest => (rest.takeWhile Char.isDigit, rest.dropWhile Char.isDigit)
    | rest => ([], rest)
  let digits := Nat.ofDigitChars 10 (whole ++ fraction) 0
  if whole ++ fraction = [] then none
  else
    match rest with
    | [] => some ⟨digits, -fraction.length⟩
    | mark :: rest =>
      if mark = 'e' ∨ mark = 'E' then
        (readExponent rest).map fun exponent => ⟨digits, exponent - fraction.length⟩
      else none

/-- The words for numbers that have no digits. -/
def readWord (text : List Char) : Option Float :=
  let lower := text.map Char.toLower
  if lower = ['n', 'a', 'n'] then some (0.0 / 0.0)
  else if lower = ['i', 'n', 'f'] ∨ lower = ['i', 'n', 'f', 'i', 'n', 'i', 't', 'y'] then
    some (Binary64.ofMagnitude Binary64.infinity)
  else none

/-- A numeral without a sign. -/
def readUnsigned (text : List Char) : Except NumeralError Float :=
  match readWord text with
  | some x => .ok x
  | none =>
    match readDecimal text with
    | some d => .ok (Binary64.ofMagnitude d.magnitude)
    | none => .error .invalid

/-- The number that a text denotes, rounded to the nearest one. -/
def read (text : String) : Except NumeralError Float :=
  match text.toList with
  | [] => .error .empty
  | '-' :: rest => (readUnsigned rest).map fun x => -x
  | '+' :: rest => readUnsigned rest
  | rest => readUnsigned rest

end Numeral

end Reckoner

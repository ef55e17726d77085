/-
  Reckoner.Proofs.Decimal.Digits

  Texts that begin with a digit and are read as numbers: digits alone, and digits with one point
  after the first of them.
-/
import Mathlib.Data.List.TakeWhile
import Reckoner.Decimal.Numeral

namespace Reckoner.Numeral

theorem readDecimal_of_isDigit {digits : List Char} (hne : digits ≠ [])
    (hdigits : ∀ c ∈ digits, c.isDigit) :
    readDecimal digits = some ⟨Nat.ofDigitChars 10 digits 0, 0⟩ := by
  have htake : digits.takeWhile Char.isDigit = digits := List.takeWhile_eq_self_iff.2 hdigits
  have hdrop : digits.dropWhile Char.isDigit = [] := List.dropWhile_eq_nil_iff.2 hdigits
  rw [readDecimal, htake, hdrop]
  simp [hne]

/-- The digits on both sides of the point are read as one number. -/
theorem readDecimal_append_point {whole fraction : List Char} (hne : whole ≠ [])
    (hwhole : ∀ c ∈ whole, c.isDigit) (hfraction : ∀ c ∈ fraction, c.isDigit) :
    readDecimal (whole ++ '.' :: fraction)
      = some ⟨Nat.ofDigitChars 10 (whole ++ fraction) 0, -fraction.length⟩ := by
  have hpoint : ¬ '.'.isDigit := by decide
  have htake : (whole ++ '.' :: fraction).takeWhile Char.isDigit = whole := by
    rw [List.takeWhile_append_of_pos hwhole, List.takeWhile_cons_of_neg hpoint, List.append_nil]
  have hdrop : (whole ++ '.' :: fraction).dropWhile Char.isDigit = '.' :: fraction := by
    rw [List.dropWhile_append_of_pos hwhole, List.dropWhile_cons_of_neg hpoint]
  have hall : fraction.takeWhile Char.isDigit = fraction := List.takeWhile_eq_self_iff.2 hfraction
  have hend : fraction.dropWhile Char.isDigit = [] := List.dropWhile_eq_nil_iff.2 hfraction
  rw [readDecimal, htake, hdrop]
  simp [hall, hend, hne]

/-- A text that begins with a digit has no sign. -/
theorem read_ofList_of_isDigit {first : Char} {rest : List Char} (hfirst : first.isDigit) :
    read (String.ofList (first :: rest)) = readUnsigned (first :: rest) := by
  have hminus : first ≠ '-' := by rintro rfl; revert hfirst; decide
  have hplus : first ≠ '+' := by rintro rfl; revert hfirst; decide
  rw [read, String.toList_ofList]
  split
  · next heq => cases heq
  · next heq => exact absurd (List.cons.inj heq).1 hminus
  · next heq => exact absurd (List.cons.inj heq).1 hplus
  · rfl

end Reckoner.Numeral

/-
  Reckoner.Proofs.Decimal.RoundTrip

  What is written for a number is read as that number (`Numeral.read_ofFloat`).

  A positional numeral is a whole part, at least a digit long, and maybe a point and a fraction.
  Reading puts the digits of both together, so it gives the decimal that was written, but for the
  zeros that went to the whole part or were left off the fraction; they do not change the magnitude.
-/
import Reckoner.Proofs.Decimal.Digits
import Reckoner.Proofs.Decimal.Patterns
import Reckoner.Proofs.Decimal.Rounding

namespace Reckoner.Numeral

/-! ## Positional notation -/

/-- A fraction with its point.  The empty one has none. -/
def pointed : List Char → List Char
  | [] => []
  | first :: rest => '.' :: first :: rest

/-- The digits of both parts are read as one number. -/
theorem readDecimal_append_pointed {whole fraction : List Char} (hne : whole ≠ [])
    (hwhole : ∀ c ∈ whole, c.isDigit) (hfraction : ∀ c ∈ fraction, c.isDigit) :
    readDecimal (whole ++ pointed fraction)
      = some ⟨Nat.ofDigitChars 10 (whole ++ fraction) 0, -fraction.length⟩ := by
  cases fraction with
  | nil =>
      rw [pointed, List.append_nil, readDecimal_of_isDigit hne hwhole]
      rfl
  | cons => exact readDecimal_append_point hne hwhole hfraction

theorem exists_eq_dropTrailingZeros_append (digits : List Char) :
    ∃ zeros, digits = dropTrailingZeros digits ++ List.replicate zeros '0' := by
  have hzeros : digits.reverse.takeWhile (· == '0')
      = List.replicate (digits.reverse.takeWhile (· == '0')).length '0' := by
    refine List.eq_replicate_of_mem fun c hc => ?_
    simpa using List.mem_takeWhile_imp hc
  refine ⟨(digits.reverse.takeWhile (· == '0')).length, ?_⟩
  rw [dropTrailingZeros, ← List.reverse_replicate, ← hzeros, ← List.reverse_append,
    List.takeWhile_append_dropWhile, List.reverse_reverse]

theorem isDigit_of_mem_toDigits {n : Nat} : ∀ c ∈ Nat.toDigits 10 n, c.isDigit :=
  fun _ hc => Nat.isDigit_of_mem_toDigits (by decide) (by decide) hc

theorem isDigit_of_mem_replicate {zeros : Nat} : ∀ c ∈ List.replicate zeros '0', c.isDigit := by
  intro c hc
  rw [List.eq_of_mem_replicate hc]
  decide

/-- The parts are those of the positional numeral of the decimal, and their digits denote a decimal
of the same magnitude. -/
structure Parts (d : Decimal) (whole fraction : List Char) : Prop where
  whole_ne_nil : whole ≠ []
  isDigit_of_mem_whole : ∀ c ∈ whole, c.isDigit
  isDigit_of_mem_fraction : ∀ c ∈ fraction, c.isDigit
  positional_eq : positional d = whole ++ pointed fraction
  magnitude_eq : Decimal.magnitude ⟨Nat.ofDigitChars 10 (whole ++ fraction) 0, -fraction.length⟩
    = d.magnitude

/-- A whole number has its digits, zeros after them, and no fraction. -/
theorem parts_of_exponent_nonneg {d : Decimal} (h : 0 ≤ d.exponent) :
    Parts d (Nat.toDigits 10 d.digits ++ List.replicate d.exponent.toNat '0') [] where
  whole_ne_nil := by simp [Nat.toDigits_ne_nil]
  isDigit_of_mem_whole := by
    intro c hc
    rcases List.mem_append.1 hc with hc | hc
    · exact isDigit_of_mem_toDigits c hc
    · exact isDigit_of_mem_replicate c hc
  isDigit_of_mem_fraction := nofun
  positional_eq := by
    rw [positional, if_pos h]
    exact (List.append_nil _).symm
  magnitude_eq := by
    rw [List.append_nil, Nat.ofDigitChars_append, Nat.ofDigitChars_ten_toDigits,
      Nat.ofDigitChars_replicate_zero, Nat.mul_comm, Decimal.magnitude_mul_pow]
    simp [h]

/-- Digits with as many zeros before them as leave a digit before the point. -/
def padded (digits places : Nat) : List Char :=
  List.replicate (places + 1 - (Nat.toDigits 10 digits).length) '0' ++ Nat.toDigits 10 digits

theorem isDigit_of_mem_padded {digits places : Nat} : ∀ c ∈ padded digits places, c.isDigit := by
  intro c hc
  rcases List.mem_append.1 hc with hc | hc
  · exact isDigit_of_mem_replicate c hc
  · exact isDigit_of_mem_toDigits c hc

theorem lt_length_padded (digits places : Nat) : places < (padded digits places).length := by
  rw [padded, List.length_append, List.length_replicate]
  omega

theorem ofDigitChars_padded (digits places : Nat) :
    Nat.ofDigitChars 10 (padded digits places) 0 = digits := by
  rw [padded, Nat.ofDigitChars_append, Nat.ofDigitChars_replicate_zero, Nat.mul_zero,
    Nat.ofDigitChars_ten_toDigits]

theorem positional_of_places (digits : Nat) {places : Nat} (hplaces : 0 < places) :
    positional ⟨digits, -places⟩
      = (padded digits places).take ((padded digits places).length - places)
        ++ pointed (dropTrailingZeros
            ((padded digits places).drop ((padded digits places).length - places))) := by
  have hneg : ¬ 0 ≤ -(places : Int) := by omega
  have hnat : (- -(places : Int)).toNat = places := by omega
  simp only [positional, if_neg hneg, hnat]
  rw [← padded]
  cases dropTrailingZeros
      ((padded digits places).drop ((padded digits places).length - places)) with
  | nil => exact (List.append_nil _).symm
  | cons => rfl

/-- Digits before and after the point, without the zeros at the end. -/
theorem exists_parts_of_places (digits places : Nat) (hplaces : 0 < places) :
    ∃ whole fraction, Parts ⟨digits, -places⟩ whole fraction := by
  have hlength := lt_length_padded digits places
  -- The point stands before the last `places` of the digits.
  obtain ⟨whole, hwhole⟩ : ∃ whole, whole
      = (padded digits places).take ((padded digits places).length - places) := ⟨_, rfl⟩
  obtain ⟨tail, htail⟩ : ∃ tail, tail
      = (padded digits places).drop ((padded digits places).length - places) := ⟨_, rfl⟩
  obtain ⟨zeros, hzeros⟩ := exists_eq_dropTrailingZeros_append tail
  have hsplit : padded digits places
      = whole ++ dropTrailingZeros tail ++ List.replicate zeros '0' := by
    rw [List.append_assoc, ← hzeros, hwhole, htail, List.take_append_drop]
  have hdigits : ∀ c ∈ whole ++ dropTrailingZeros tail, c.isDigit := fun c hc =>
    isDigit_of_mem_padded c (hsplit ▸ List.mem_append_left _ hc)
  -- The zeros that are dropped make up for the shorter fraction.
  have hscaled : digits
      = Nat.ofDigitChars 10 (whole ++ dropTrailingZeros tail) 0 * 10 ^ zeros := by
    rw [← ofDigitChars_padded digits places, hsplit, Nat.ofDigitChars_append _,
      Nat.ofDigitChars_replicate_zero, Nat.mul_comm]
  have hshift : -((dropTrailingZeros tail).length : Int) = -(places : Int) + zeros := by
    have htailLength : tail.length = places := by
      rw [htail, List.length_drop]
      omega
    rw [← htailLength, congrArg List.length hzeros, List.length_append, List.length_replicate]
    omega
  refine ⟨whole, dropTrailingZeros tail, ?_, ?_, ?_, ?_, ?_⟩
  · refine List.ne_nil_of_length_pos ?_
    rw [hwhole, List.length_take]
    omega
  · exact fun c hc => hdigits c (List.mem_append_left _ hc)
  · exact fun c hc => hdigits c (List.mem_append_right _ hc)
  · rw [positional_of_places digits hplaces, ← hwhole, ← htail]
  · rw [hshift, ← Decimal.magnitude_mul_pow, ← hscaled]

/-- Every positional numeral has parts. -/
theorem exists_parts (d : Decimal) : ∃ whole fraction, Parts d whole fraction := by
  obtain ⟨digits, exponent⟩ := d
  rcases lt_or_ge exponent 0 with hneg | hnonneg
  · obtain ⟨places, rfl⟩ : ∃ places : Nat, exponent = -(places : Int) :=
      ⟨(-exponent).toNat, by omega⟩
    exact exists_parts_of_places digits places (by omega)
  · exact ⟨_, _, parts_of_exponent_nonneg hnonneg⟩

/-! ## The characters of a numeral -/

theorem all_positional {p : Char → Bool} (hdigit : ∀ c, c.isDigit → p c) (hpoint : p '.')
    (d : Decimal) : (positional d).all p := by
  obtain ⟨whole, fraction, hparts⟩ := exists_parts d
  have hwhole : whole.all p :=
    List.all_eq_true.2 fun c hc => hdigit c (hparts.isDigit_of_mem_whole c hc)
  have hfraction : fraction.all p :=
    List.all_eq_true.2 fun c hc => hdigit c (hparts.isDigit_of_mem_fraction c hc)
  have hpointed : (pointed fraction).all p := by
    cases fraction with
    | nil => rfl
    | cons first rest => rw [pointed, List.all_cons, hpoint, hfraction, Bool.true_and]
  rw [hparts.positional_eq, List.all_append, hwhole, hpointed, Bool.true_and]

/-- A number is written with digits and a point, a sign, and two words. -/
theorem all_ofFloat {p : Char → Bool} (hdigit : ∀ c, c.isDigit → p c) (hpoint : p '.')
    (hsign : "-".toList.all p) (hinfinity : "inf".toList.all p) (hnan : "NaN".toList.all p)
    (x : Float) : (ofFloat x).toList.all p := by
  have hsigned : (if Binary64.isNegative x then "-" else "").toList.all p := by
    split
    · exact hsign
    · rfl
  rw [ofFloat]
  by_cases hnumber : Binary64.infinity < Binary64.magnitude x
  · rwa [if_pos hnumber]
  · rw [if_neg hnumber]
    by_cases hinfinite : Binary64.magnitude x = Binary64.infinity
    · rw [if_pos hinfinite, String.toList_append, List.all_append, hsigned, hinfinity,
        Bool.true_and]
    · rw [if_neg hinfinite, String.toList_append, List.all_append, hsigned, String.toList_ofList,
        all_positional hdigit hpoint, Bool.true_and]

/-! ## Reading -/

/-- A text that begins with a digit is none of the words. -/
theorem readWord_eq_none {first : Char} {rest : List Char} (hfirst : first.isDigit) :
    readWord (first :: rest) = none := by
  have hlower : first.toLower = first := by
    have hnine : first.val ≤ '9'.val := by
      rw [Char.isDigit, Bool.and_eq_true, decide_eq_true_eq, decide_eq_true_eq] at hfirst
      exact hfirst.2
    refine dif_neg ?_
    -- Capital letters come after the digits.
    rintro ⟨hcapital, -⟩
    exact absurd (UInt32.le_trans hcapital hnine) (by decide)
  have hn : first ≠ 'n' := by rintro rfl; revert hfirst; decide
  have hi : first ≠ 'i' := by rintro rfl; revert hfirst; decide
  simp [readWord, hlower, hn, hi]

/-- A positional numeral is read as the number nearest to the decimal. -/
theorem readUnsigned_positional (d : Decimal) : ∃ first rest, positional d = first :: rest ∧
    first.isDigit ∧ readUnsigned (first :: rest) = .ok (Binary64.ofMagnitude d.magnitude) := by
  obtain ⟨whole, fraction, hparts⟩ := exists_parts d
  have hread := readDecimal_append_pointed hparts.whole_ne_nil hparts.isDigit_of_mem_whole
    hparts.isDigit_of_mem_fraction
  cases whole with
  | nil => exact absurd rfl hparts.whole_ne_nil
  | cons first rest =>
      have hfirst := hparts.isDigit_of_mem_whole first List.mem_cons_self
      have hpositional := hparts.positional_eq
      rw [List.cons_append] at hpositional hread
      refine ⟨first, rest ++ pointed fraction, hpositional, hfirst, ?_⟩
      rw [readUnsigned, readWord_eq_none hfirst, hread]
      exact congrArg (fun m => Except.ok (Binary64.ofMagnitude m)) hparts.magnitude_eq

/-- What is written for a number is read as that number. -/
theorem read_ofFloat (x : Float) : read (ofFloat x) = .ok x := by
  by_cases hnan : Binary64.infinity < Binary64.magnitude x
  · -- There is one NaN, and its word is read as it.
    rw [ofFloat, if_pos hnan, Binary64.eq_nan_of_infinity_lt hnan]
    decide +kernel
  have hnumber : Binary64.magnitude x ≤ Binary64.infinity := by omega
  rw [ofFloat, if_neg hnan]
  rcases hnumber.eq_or_lt with hinfinite | hfinite
  · -- The two infinities have words of their own.
    simp only [if_pos hinfinite]
    cases hsign : Binary64.isNegative x with
    | true =>
        rw [← Binary64.neg_ofMagnitude_magnitude hsign hnumber, hinfinite]
        decide +kernel
    | false =>
        rw [← Binary64.ofMagnitude_magnitude hsign hnumber, hinfinite]
        decide +kernel
  · -- What is written for the magnitude is a positional numeral; a minus goes before it.
    simp only [if_neg hfinite.ne]
    obtain ⟨first, rest, hpositional, hfirst, hread⟩ :=
      readUnsigned_positional (Decimal.shortest (Binary64.magnitude x))
    rw [Decimal.magnitude_shortest hfinite] at hread
    rw [hpositional]
    cases hsign : Binary64.isNegative x with
    | true =>
        have hsigned : read ("-" ++ String.ofList (first :: rest))
            = (readUnsigned (first :: rest)).map (- ·) := by
          rw [read, String.toList_append, String.toList_ofList, String.toList_ofList]
          rfl
        rw [if_pos rfl, hsigned, hread]
        exact congrArg Except.ok (Binary64.neg_ofMagnitude_magnitude hsign hnumber)
    | false =>
        rw [if_neg (by decide), String.empty_append, read_ofList_of_isDigit hfirst, hread,
          Binary64.ofMagnitude_magnitude hsign hnumber]

end Reckoner.Numeral

/-
  Reckoner.Proofs.Decimal.Rounding

  The shortest decimal of a magnitude has that magnitude.

  Rounding depends on the ratio of its two arguments only, so zeros at the end of the digits of a
  decimal go over to its exponent (`magnitude_mul_pow`).  The exact value of a finite magnitude is
  a whole multiple of its significand's last place and is rounded to itself (`magnitude_exact`);
  the search for shorter decimals keeps to those that are rounded to it too.
-/
import Mathlib.Tactic.Ring
import Mathlib.Tactic.SplitIfs
import Reckoner.Decimal.Shortest

namespace Reckoner

namespace Binary64

/-! ## Ratios -/

theorem roundHalfEven_mul_right (num den : Nat) {factor : Nat} (hfactor : 0 < factor) :
    roundHalfEven (num * factor) (den * factor) = roundHalfEven num den := by
  have hrest : num * factor % (den * factor) = num % den * factor := Nat.mul_mod_mul_right ..
  have hless : 2 * (num % den * factor) < den * factor ↔ 2 * (num % den) < den := by
    rw [← Nat.mul_assoc]
    exact Nat.mul_lt_mul_right hfactor
  have hmore : den * factor < 2 * (num % den * factor) ↔ den < 2 * (num % den) := by
    rw [← Nat.mul_assoc]
    exact Nat.mul_lt_mul_right hfactor
  simp only [roundHalfEven, hrest, hless, hmore, Nat.mul_div_mul_right _ _ hfactor]

theorem nearest_mul_right (num den : Nat) {factor : Nat} (hfactor : 0 < factor) :
    nearest (num * factor) (den * factor) = nearest num den := by
  have hscaled : num * factor * 2 ^ unitExponent = num * 2 ^ unitExponent * factor :=
    Nat.mul_right_comm ..
  simp only [nearest, hscaled, Nat.mul_div_mul_right _ _ hfactor,
    Nat.mul_right_comm den factor, roundHalfEven_mul_right _ _ hfactor]

/-- Equal ratios are rounded alike. -/
theorem nearest_eq_of_mul_eq {num den num' den' : Nat} (hden : 0 < den) (hden' : 0 < den')
    (h : num * den' = num' * den) : nearest num den = nearest num' den' := by
  rw [← nearest_mul_right num den hden', ← nearest_mul_right num' den' hden, h,
    Nat.mul_comm den den']

/-! ## Finite magnitudes -/

/-- The two fields of a magnitude, put together. -/
theorem significand_add_doublings (magnitude : Nat) :
    significand magnitude + doublings magnitude * 2 ^ 52 = magnitude := by
  rw [significand, doublings]
  split_ifs with hsmall <;> omega

/-- The exponent can be read off the units. -/
theorem log2_units (magnitude : Nat) : (units magnitude).log2 - 52 = doublings magnitude := by
  rw [units]
  by_cases hsmall : magnitude < 2 ^ 52
  · -- Without the hidden bit nothing is doubled.
    have hdoublings : doublings magnitude = 0 := by
      rw [doublings]
      omega
    have hlog : magnitude.log2 < 52 := by
      by_cases hzero : magnitude = 0
      · rw [hzero]
        decide
      · exact (Nat.log2_lt hzero).2 hsmall
    rw [hdoublings, significand, if_pos hsmall, Nat.pow_zero, Nat.mul_one]
    omega
  · -- The hidden bit is bit 52, and each doubling moves it up by one.
    have hlow : 2 ^ 52 ≤ significand magnitude := by
      rw [significand, if_neg hsmall]
      omega
    have hhigh : significand magnitude < 2 ^ 53 := by
      rw [significand, if_neg hsmall]
      omega
    have hpow : 0 < 2 ^ doublings magnitude := Nat.two_pow_pos _
    have hlog : (significand magnitude * 2 ^ doublings magnitude).log2
        = 52 + doublings magnitude := by
      rw [Nat.log2_eq_iff (Nat.mul_pos (by omega) hpow).ne', Nat.pow_add,
        Nat.add_right_comm, Nat.pow_add]
      exact ⟨Nat.mul_le_mul_right _ hlow, (Nat.mul_lt_mul_right hpow).2 hhigh⟩
    omega

/-- A ratio that is a finite magnitude exactly is rounded to it. -/
theorem nearest_of_eq_units {num den magnitude : Nat} (hden : 0 < den)
    (hfinite : magnitude < infinity) (h : num * 2 ^ unitExponent = units magnitude * den) :
    nearest num den = magnitude := by
  have hpow : 0 < den * 2 ^ doublings magnitude := Nat.mul_pos hden (Nat.two_pow_pos _)
  have hscaled : units magnitude * den
      = significand magnitude * (den * 2 ^ doublings magnitude) := by
    rw [units]
    ring
  -- The division leaves no rest.
  have hround : roundHalfEven (units magnitude * den) (den * 2 ^ doublings magnitude)
      = significand magnitude := by
    simp only [hscaled, roundHalfEven, Nat.mul_mod_left, Nat.mul_div_cancel _ hpow]
    rw [Nat.mul_zero, if_pos hpow]
  simp only [nearest, h, Nat.mul_div_cancel _ hden, log2_units, hround, significand_add_doublings]
  exact Nat.min_eq_right hfinite.le

end Binary64

namespace Decimal

open Binary64

/-! ## Zeros at the end -/

theorem digitCount_mul_ten {n : Nat} (hpos : 0 < n) : digitCount (n * 10) = digitCount n + 1 := by
  have happend := Nat.toDigits_append_toDigits (b := 10) (d := 0) (by decide) hpos (by decide)
  rw [digitCount, Nat.mul_comm, ← Nat.add_zero (10 * n), ← happend, List.length_append]
  rfl

theorem digitCount_mul_pow {n : Nat} (hpos : 0 < n) (zeros : Nat) :
    digitCount (n * 10 ^ zeros) = digitCount n + zeros := by
  induction zeros with
  | zero => rw [Nat.pow_zero, Nat.mul_one, Nat.add_zero]
  | succ zeros ih =>
      have hmore : 0 < n * 10 ^ zeros := Nat.mul_pos hpos (Nat.pow_pos (by decide))
      rw [Nat.pow_succ, ← Nat.mul_assoc, digitCount_mul_ten hmore, ih, Nat.add_assoc]

/-- Zeros at the end of the digits may be counted in the exponent. -/
theorem magnitude_mul_pow (digits zeros : Nat) (exponent : Int) :
    magnitude ⟨digits * 10 ^ zeros, exponent⟩ = magnitude ⟨digits, exponent + zeros⟩ := by
  have hten (k : Nat) : 0 < 10 ^ k := Nat.pow_pos (by decide)
  by_cases hzero : digits = 0
  · simp [magnitude, hzero]
  · have hpos : 0 < digits := Nat.pos_of_ne_zero hzero
    have hne : digits * 10 ^ zeros ≠ 0 := (Nat.mul_pos hpos (hten zeros)).ne'
    have hpoint : ((digitCount digits + zeros : Nat) : Int) + exponent
        = digitCount digits + (exponent + zeros) := by
      omega
    have hnearest : nearest (digits * 10 ^ zeros * 10 ^ exponent.toNat) (10 ^ (-exponent).toNat)
        = nearest (digits * 10 ^ (exponent + zeros).toNat) (10 ^ (-(exponent + zeros)).toNat) := by
      refine nearest_eq_of_mul_eq (hten _) (hten _) ?_
      -- Crosswise products of powers of ten, whatever the signs of the two exponents.
      have hpowers : zeros + exponent.toNat + (-(exponent + zeros)).toNat
          = (exponent + zeros).toNat + (-exponent).toNat := by
        omega
      rw [Nat.mul_assoc, Nat.mul_assoc, Nat.mul_assoc, ← Nat.pow_add, ← Nat.pow_add,
        ← Nat.pow_add, ← hpowers, Nat.add_assoc]
    simp only [magnitude, if_neg hzero, if_neg hne, digitCount_mul_pow hpos, hpoint, hnearest]

/-! ## Exact values -/

theorem units_lt {m k : Nat} (h : doublings m ≤ k) : units m < 2 ^ 53 * 2 ^ k := by
  have hsignificand : significand m < 2 ^ 53 := by
    rw [significand]
    split_ifs with hsmall <;> omega
  calc units m = significand m * 2 ^ doublings m := rfl
    _ < 2 ^ 53 * 2 ^ doublings m := (Nat.mul_lt_mul_right (Nat.two_pow_pos _)).2 hsignificand
    _ ≤ 2 ^ 53 * 2 ^ k := Nat.mul_le_mul_left _ (Nat.pow_le_pow_right (by decide) h)

/-- The exact value of a positive finite magnitude is within the bounds that spare powers of ten. -/
theorem digitCount_exact {m : Nat} (hfinite : m < infinity) (hpos : 0 < units m) :
    744 ≤ digitCount (exact m).digits ∧ digitCount (exact m).digits ≤ 1394 := by
  have hcount {k : Nat} (hk : 0 < k) :
      digitCount (exact m).digits ≤ k ↔ units m * 5 ^ unitExponent < 10 ^ k :=
    Nat.length_toDigits_le_iff (by decide) hk
  have hfive : 0 < 5 ^ unitExponent := Nat.pow_pos (by decide)
  have hlow : 10 ^ 743 ≤ units m * 5 ^ unitExponent :=
    Nat.le_trans (by decide +kernel) (Nat.le_mul_of_pos_left (5 ^ unitExponent) hpos)
  -- The greatest exponent field is 2046, and the first one that doubles is 2.
  have hdoublings : doublings m ≤ 2045 := by
    rw [infinity] at hfinite
    rw [doublings]
    omega
  have hhigh : units m * 5 ^ unitExponent < 10 ^ 1394 :=
    Nat.lt_of_lt_of_le ((Nat.mul_lt_mul_right hfive).2 (units_lt hdoublings)) (by decide +kernel)
  have hnot := mt (hcount (k := 743) (by decide)).1 (Nat.not_lt.2 hlow)
  exact ⟨by omega, (hcount (by decide)).2 hhigh⟩

theorem units_eq_zero_iff {m : Nat} : units m = 0 ↔ m = 0 := by
  have hpow : 2 ^ doublings m ≠ 0 := (Nat.two_pow_pos _).ne'
  rw [units, Nat.mul_eq_zero, or_iff_left hpow, significand]
  split_ifs with hsmall
  · rfl
  · omega

/-- The exact value of a finite magnitude has that magnitude. -/
theorem magnitude_exact {m : Nat} (hfinite : m < infinity) : (exact m).magnitude = m := by
  rcases Nat.eq_zero_or_pos (units m) with hzero | hpos
  · have hdigits : (exact m).digits = 0 := by
      rw [exact, hzero, Nat.zero_mul]
    rw [magnitude, if_pos hdigits, units_eq_zero_iff.1 hzero]
  · obtain ⟨hlow, hhigh⟩ := digitCount_exact hfinite hpos
    have hdigits : (exact m).digits ≠ 0 :=
      (Nat.mul_pos hpos (Nat.pow_pos (by decide))).ne'
    have hexponent : (exact m).exponent = -1074 := rfl
    have hten (k : Nat) : units m * 5 ^ k * 10 ^ 0 * 2 ^ k = units m * 10 ^ k := by
      rw [Nat.pow_zero, Nat.mul_one, Nat.mul_assoc, ← Nat.mul_pow]
    rw [magnitude, if_neg hdigits, if_neg (by omega), if_neg (by omega)]
    exact nearest_of_eq_units (Nat.pow_pos (by decide)) hfinite (hten unitExponent)

/-! ## Shortest decimals -/

theorem magnitude_of_neighbour? {d neighbour : Decimal} {m dropped : Nat}
    (h : d.neighbour? m dropped = some neighbour) : neighbour.magnitude = m := by
  rw [neighbour?] at h
  split_ifs at h with hbelow habove habove
  · rw [← Option.some.inj h, habove.1]
  · rw [← Option.some.inj h, hbelow]
  · rw [← Option.some.inj h, habove]

theorem magnitude_coarsest {d : Decimal} {m : Nat} (h : d.magnitude = m) (dropped : Nat) :
    (d.coarsest m dropped).magnitude = m := by
  -- A decimal with fewer digits is taken only if it is rounded to the same magnitude.
  induction dropped with
  | zero => exact h
  | succ dropped ih =>
      rw [coarsest]
      cases hneighbour : d.neighbour? m (dropped + 1) with
      | none => exact ih
      | some neighbour => exact magnitude_of_neighbour? hneighbour

/-- The shortest decimal of a finite magnitude has that magnitude. -/
theorem magnitude_shortest {m : Nat} (hfinite : m < infinity) : (shortest m).magnitude = m :=
  magnitude_coarsest (magnitude_exact hfinite) _

end Decimal

end Reckoner

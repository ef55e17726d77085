/-
  Reckoner.Proofs.Decimal.Patterns

  A number is its sign and its magnitude.

  A binary64 pattern consists of a sign, an exponent and a mantissa.  Decoding a pattern that is no
  NaN and encoding the outcome gives the pattern back, and negation exchanges the sign
  (`pack_unpack_ofFields`, `neg_unpack_ofFields`).  There is one NaN.  So every number is got back
  from what `Binary64.magnitude` and `Binary64.isNegative` tell of it.
-/
import Mathlib.Tactic.SplitIfs
import Reckoner.Binary64

namespace Reckoner.Binary64

open Float.Model.UnpackedFloat

/-! ## Fields of a pattern -/

/-- The pattern of the fields. -/
def ofFields (sign : Sign) (exponent : BitVec 11) (mantissa : BitVec 52) : BitVec 64 :=
  packComponents .binary64 sign exponent mantissa

theorem toBitVec_ofBitVec (bit : BitVec 1) : (Sign.ofBitVec bit).toBitVec = bit := by
  revert bit
  decide

theorem toNat_ofFields (sign : Sign) (exponent : BitVec 11) (mantissa : BitVec 52) :
    (ofFields sign exponent mantissa).toNat
      = sign.toBitVec.toNat * 2 ^ 63 + (exponent.toNat * 2 ^ 52 + mantissa.toNat) := by
  have hexponent := exponent.isLt
  have hmantissa := mantissa.isLt
  show (sign.toBitVec ++ exponent ++ mantissa : BitVec (1 + 11 + 52)).toNat = _
  rw [BitVec.toNat_append, BitVec.toNat_append, ← Nat.shiftLeft_add_eq_or_of_lt hmantissa,
    ← Nat.shiftLeft_add_eq_or_of_lt hexponent, Nat.shiftLeft_eq, Nat.shiftLeft_eq]
  omega

theorem unpackSign_ofFields (sign : Sign) (exponent : BitVec 11) (mantissa : BitVec 52) :
    Sign.ofBitVec (@unpackSign .binary64 (ofFields sign exponent mantissa)) = sign := by
  have hexponent := exponent.isLt
  have hmantissa := mantissa.isLt
  have hbit : @unpackSign .binary64 (ofFields sign exponent mantissa)
      = sign.toBitVec := by
    apply BitVec.eq_of_toNat_eq
    have hsign := sign.toBitVec.isLt
    -- The sign is the highest bit.
    show ((ofFields sign exponent mantissa).extractLsb 63 63).toNat = _
    rw [BitVec.extractLsb_toNat, toNat_ofFields, Nat.shiftRight_eq_div_pow]
    omega
  rw [hbit]
  cases sign <;> rfl

/-- Every pattern has fields. -/
theorem exists_eq_ofFields (bits : BitVec 64) :
    ∃ sign exponent mantissa, bits = ofFields sign exponent mantissa := by
  refine ⟨Sign.ofBitVec (.ofNat 1 (bits.toNat / 2 ^ 63)), .ofNat 11 (bits.toNat / 2 ^ 52),
    .ofNat 52 bits.toNat, BitVec.eq_of_toNat_eq ?_⟩
  rw [toNat_ofFields, toBitVec_ofBitVec, BitVec.toNat_ofNat, BitVec.toNat_ofNat,
    BitVec.toNat_ofNat]
  have hbits := bits.isLt
  omega

/-! ## Decoding and encoding -/

theorem toNat_pos_of_ne_zero {mantissa : BitVec 52} (h : mantissa ≠ 0#52) : 0 < mantissa.toNat :=
  Nat.pos_of_ne_zero fun hzero => h (BitVec.eq_of_toNat_eq hzero)

/-- A hidden bit is the highest. -/
theorem toNat_hidden (mantissa : BitVec 52) :
    (1#1 ++ mantissa).toNat = 2 ^ 52 + mantissa.toNat := by
  rw [BitVec.toNat_append, ← Nat.shiftLeft_add_eq_or_of_lt mantissa.isLt, Nat.shiftLeft_eq]
  rfl

theorem toNat_hidden_pos (mantissa : BitVec 52) : 0 < (1#1 ++ mantissa).toNat := by
  rw [toNat_hidden]
  omega

/-- The number with a hidden bit before its mantissa. -/
def normal (sign : Sign) (exponent : BitVec 11) (mantissa : BitVec 52) :
    Float.Model.UnpackedFloat :=
  .finite sign (1#1 ++ mantissa).toNat ((exponent.toNat : Int) - (1023 + 52 : Nat))
    (toNat_hidden_pos mantissa)

/-- The number without a hidden bit. -/
def subnormal (sign : Sign) (exponent : BitVec 11) {mantissa : BitVec 52}
    (h : mantissa ≠ 0#52) : Float.Model.UnpackedFloat :=
  .finite sign mantissa.toNat ((exponent.toNat : Int) - (1023 + 52 : Nat) + 1)
    (toNat_pos_of_ne_zero h)

/-- Decoding the pattern of the fields. -/
theorem unpack_ofFields (sign : Sign) (exponent : BitVec 11) (mantissa : BitVec 52) :
    unpack .binary64 (ofFields sign exponent mantissa) =
      if exponent = -1#11 then
        if mantissa = 0#52 then .infinity sign else .notANumber
      else if exponent = 0#11 then
        if h : mantissa = 0#52 then .zero sign else subnormal sign exponent h
      else normal sign exponent mantissa := by
  have hsign := unpackSign_ofFields sign exponent mantissa
  have hexponent : @unpackExponent .binary64 (ofFields sign exponent mantissa) = exponent :=
    unpackExponent_packComponents
  have hmantissa : @unpackMantissa .binary64 (ofFields sign exponent mantissa) = mantissa :=
    unpackMantissa_packComponents
  generalize ofFields sign exponent mantissa = bits at *
  subst hsign hexponent hmantissa
  rfl

/-- Exchanging the sign of a pattern negates the number. -/
theorem neg_unpack_ofFields (sign : Sign) (exponent : BitVec 11) (mantissa : BitVec 52) :
    (unpack .binary64 (ofFields sign exponent mantissa)).neg
      = unpack .binary64 (ofFields (-sign) exponent mantissa) := by
  rw [unpack_ofFields, unpack_ofFields]
  split_ifs <;> rfl

/-- Encoding a finite number. -/
theorem pack_finite (sign : Sign) (mantissa : Nat) (exponent : Int) (hpos : 0 < mantissa) :
    pack .binary64 (.finite sign mantissa exponent hpos) =
      if 2 ^ 11 ≤ (exponent + 1023 + 52).toNat + 1 then packedInfinity .binary64 sign
      else if mantissa.log2 + 1 = 53 then
        ofFields sign (.ofNat 11 (exponent + 1023 + 52).toNat) (.ofNat 52 mantissa)
      else ofFields sign 0#11 (.ofNat 52 mantissa) :=
  rfl

theorem pack_normal (sign : Sign) {exponent : BitVec 11} (mantissa : BitVec 52)
    (hlast : exponent ≠ -1#11) :
    pack .binary64 (normal sign exponent mantissa) = ofFields sign exponent mantissa := by
  have hexponent : exponent.toNat < 2047 := by
    have hbound := exponent.isLt
    have hne : exponent.toNat ≠ (-1#11).toNat := fun h => hlast (BitVec.eq_of_toNat_eq h)
    rw [show (-1#11).toNat = 2047 by decide] at hne
    omega
  have hmantissa := mantissa.isLt
  -- The hidden bit is the highest, and encoding drops it again.
  have hlog : (2 ^ 52 + mantissa.toNat).log2 = 52 := by
    rw [Nat.log2_eq_iff (by omega)]
    omega
  have hbiased : ((exponent.toNat : Int) - (1023 + 52 : Nat) + 1023 + 52).toNat
      = exponent.toNat := by
    omega
  have hdropped : BitVec.ofNat 52 (2 ^ 52 + mantissa.toNat) = mantissa := by
    apply BitVec.eq_of_toNat_eq
    rw [BitVec.toNat_ofNat]
    omega
  rw [normal, pack_finite, toNat_hidden, hbiased, if_neg (by omega), if_pos (by rw [hlog]),
    hdropped, BitVec.ofNat_toNat, BitVec.setWidth_eq]

theorem pack_subnormal (sign : Sign) {mantissa : BitVec 52} (h : mantissa ≠ 0#52) :
    pack .binary64 (subnormal sign 0#11 h) = ofFields sign 0#11 mantissa := by
  have hpos := toNat_pos_of_ne_zero h
  have hlog : mantissa.toNat.log2 < 52 := (Nat.log2_lt (by omega)).2 mantissa.isLt
  rw [subnormal, pack_finite, if_neg (by decide), if_neg (by omega), BitVec.ofNat_toNat,
    BitVec.setWidth_eq]

/-- Encoding gives back a pattern that has been decoded, if it is no NaN. -/
theorem pack_unpack_ofFields (sign : Sign) (exponent : BitVec 11) (mantissa : BitVec 52)
    (hnumber : exponent = -1#11 → mantissa = 0#52) :
    pack .binary64 (unpack .binary64 (ofFields sign exponent mantissa))
      = ofFields sign exponent mantissa := by
  rw [unpack_ofFields]
  -- Infinity, NaN, zero, and the numbers without and with a hidden bit.
  split_ifs with hlast hzero hfirst hzero
  · subst hlast hzero
    rfl
  · exact absurd (hnumber hlast) hzero
  · subst hfirst hzero
    rfl
  · subst hfirst
    exact pack_subnormal sign hzero
  · exact pack_normal sign mantissa hlast

/-! ## Numbers -/

/-- A number is determined by its pattern. -/
theorem eq_of_toBits_eq {x y : Float} (h : x.toBits.toBitVec = y.toBits.toBitVec) : x = y := by
  obtain ⟨⟨bits, hvalid⟩⟩ := x
  obtain ⟨⟨bits', hvalid'⟩⟩ := y
  obtain rfl : bits = bits' := UInt64.toBitVec_inj.1 h
  rfl

/-- The sign and the magnitude of a number, in its pattern. -/
theorem exists_fields (x : Float) : ∃ sign exponent mantissa,
    x.toBits.toBitVec = ofFields sign exponent mantissa ∧
    magnitude x = exponent.toNat * 2 ^ 52 + mantissa.toNat ∧
    (isNegative x = true ↔ sign = .negative) := by
  obtain ⟨sign, exponent, mantissa, hfields⟩ := exists_eq_ofFields x.toBits.toBitVec
  have hpattern : x.toBits.toNat = _ := (congrArg BitVec.toNat hfields).trans (toNat_ofFields ..)
  have hexponent := exponent.isLt
  have hmantissa := mantissa.isLt
  refine ⟨sign, exponent, mantissa, hfields, ?_, ?_⟩
  · rw [magnitude, hpattern]
    omega
  · rw [isNegative, decide_eq_true_iff, hpattern]
    cases sign with
    | negative =>
        rw [show Sign.negative.toBitVec.toNat = 1 by rfl]
        exact iff_of_true (by omega) rfl
    | positive =>
        rw [show Sign.positive.toBitVec.toNat = 0 by rfl]
        exact iff_of_false (by omega) nofun

/-- The fields of a NaN. -/
theorem infinity_lt_iff (exponent : BitVec 11) (mantissa : BitVec 52) :
    infinity < exponent.toNat * 2 ^ 52 + mantissa.toNat ↔ exponent = -1#11 ∧ mantissa ≠ 0#52 := by
  have hexponent := exponent.isLt
  have hmantissa := mantissa.isLt
  have hlast : exponent = -1#11 ↔ exponent.toNat = 2047 := BitVec.toNat_inj.symm
  have hzero : mantissa = 0#52 ↔ mantissa.toNat = 0 := BitVec.toNat_inj.symm
  rw [infinity, Ne, hlast, hzero]
  omega

/-- The numbers below infinity are the finite ones. -/
theorem isFinite_iff {x : Float} : x.isFinite ↔ magnitude x < infinity := by
  obtain ⟨sign, exponent, mantissa, hfields, hmagnitude, -⟩ := exists_fields x
  have hbelow : magnitude x < infinity ↔ exponent ≠ -1#11 := by
    have hexponent := exponent.isLt
    have hmantissa := mantissa.isLt
    have hlast : exponent = -1#11 ↔ exponent.toNat = 2047 := BitVec.toNat_inj.symm
    rw [hmagnitude, infinity, Ne, hlast]
    omega
  rw [hbelow]
  show (unpack .binary64 x.toBits.toBitVec).isFinite ↔ _
  rw [hfields, unpack_ofFields]
  -- Infinity and NaN have the last exponent; zero and the other numbers do not.
  split_ifs with hlast hzero hfirst hzero
  · exact iff_of_false Bool.false_ne_true (not_not_intro hlast)
  · exact iff_of_false Bool.false_ne_true (not_not_intro hlast)
  · exact iff_of_true rfl hlast
  · exact iff_of_true rfl hlast
  · exact iff_of_true rfl hlast

theorem mantissa_eq_zero_of_le {exponent : BitVec 11} {mantissa : BitVec 52}
    (h : exponent.toNat * 2 ^ 52 + mantissa.toNat ≤ infinity) (hlast : exponent = -1#11) :
    mantissa = 0#52 := by
  refine Decidable.byContradiction fun hzero => ?_
  have hnan := (infinity_lt_iff exponent mantissa).2 ⟨hlast, hzero⟩
  omega

/-- There is one NaN. -/
theorem eq_nan_of_infinity_lt {x : Float} (h : infinity < magnitude x) : x = 0.0 / 0.0 := by
  obtain ⟨sign, exponent, mantissa, hfields, hmagnitude, -⟩ := exists_fields x
  obtain ⟨hlast, hzero⟩ := (infinity_lt_iff exponent mantissa).1 (hmagnitude ▸ h)
  -- A number is kept with the proof that its pattern is the canonical one if it is a NaN.
  have hnan : x.toBits.toBitVec = packedNaN .binary64 := by
    refine x.toModel.valid.eq_packedNaN ?_ ?_
    · show @unpackExponent .binary64 x.toBits.toBitVec = _
      rw [hfields, ofFields, unpackExponent_packComponents, hlast]
    · show @unpackMantissa .binary64 x.toBits.toBitVec ≠ _
      rw [hfields, ofFields, unpackMantissa_packComponents]
      exact hzero
  refine eq_of_toBits_eq (hnan.trans ?_)
  decide +kernel

/-- The pattern of a number made from a pattern that is no NaN. -/
theorem toBits_ofBits {bits : UInt64} {sign : Sign} {exponent : BitVec 11} {mantissa : BitVec 52}
    (hbits : bits.toBitVec = ofFields sign exponent mantissa)
    (hnumber : exponent = -1#11 → mantissa = 0#52) :
    (Float.ofBits bits).toBits.toBitVec = ofFields sign exponent mantissa := by
  show pack .binary64 (unpack .binary64 bits.toBitVec) = _
  rw [hbits, pack_unpack_ofFields sign exponent mantissa hnumber]

/-- A number is the number of its pattern. -/
theorem ofBits_toBits {x : Float} (hnumber : magnitude x ≤ infinity) :
    Float.ofBits x.toBits = x := by
  obtain ⟨sign, exponent, mantissa, hfields, hmagnitude, -⟩ := exists_fields x
  have hfinite := mantissa_eq_zero_of_le (hmagnitude ▸ hnumber)
  exact eq_of_toBits_eq ((toBits_ofBits hfields hfinite).trans hfields.symm)

/-- A number without the sign bit is the number of its magnitude. -/
theorem ofMagnitude_magnitude {x : Float} (hsign : isNegative x = false)
    (hnumber : magnitude x ≤ infinity) : ofMagnitude (magnitude x) = x := by
  have hbits : magnitude x = x.toBits.toNat := by
    rw [isNegative, decide_eq_false_iff_not] at hsign
    exact Nat.mod_eq_of_lt (by omega)
  rw [ofMagnitude, hbits, UInt64.ofNat_toNat, ofBits_toBits hnumber]

/-- A number with the sign bit is the number of its magnitude, negated. -/
theorem neg_ofMagnitude_magnitude {x : Float} (hsign : isNegative x = true)
    (hnumber : magnitude x ≤ infinity) : -ofMagnitude (magnitude x) = x := by
  obtain ⟨sign, exponent, mantissa, hfields, hmagnitude, hnegative⟩ := exists_fields x
  obtain rfl := hnegative.1 hsign
  have hfinite := mantissa_eq_zero_of_le (hmagnitude ▸ hnumber)
  -- Without its sign bit the pattern keeps the other two fields.
  have hunsigned : (UInt64.ofNat (magnitude x)).toBitVec
      = ofFields .positive exponent mantissa := by
    have hexponent := exponent.isLt
    have hmantissa := mantissa.isLt
    apply BitVec.eq_of_toNat_eq
    rw [UInt64.toNat_toBitVec, UInt64.toNat_ofNat', toNat_ofFields, hmagnitude,
      show Sign.positive.toBitVec.toNat = 0 by rfl]
    omega
  refine eq_of_toBits_eq (Eq.trans ?_ hfields.symm)
  show pack .binary64 (unpack .binary64 (ofMagnitude (magnitude x)).toBits.toBitVec).neg = _
  rw [ofMagnitude, toBits_ofBits hunsigned hfinite, neg_unpack_ofFields]
  exact pack_unpack_ofFields .negative exponent mantissa hfinite

end Reckoner.Binary64

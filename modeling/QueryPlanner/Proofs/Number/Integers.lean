/-
  QueryPlanner.Proofs.Number.Integers

  Integers as doubles.

  An integer becomes the double nearest to it, a tie going to the even
  mantissa.  Its magnitude is cut to 53 bits by shifts that keep what they
  drop in a round bit and a sticky bit, which is division by a power of two
  rounded half to even; a mantissa that fills up is carried into the
  exponent.  Rounding a quotient keeps the order of the numerators, and a
  power of two lies on the grids above and below it, so the doubles of two
  integers lie as the integers do, or are equal.  No two integers of 53 bits
  have one double.
-/

import Mathlib
import QueryPlanner.Decimal
import QueryPlanner.Proofs.Number

namespace QueryPlanner

/-! ## Rounded quotients -/

namespace Decimal

variable {d m n : Nat}

theorem roundHalfEven_mul (q : Nat) (hd : 0 < d) : roundHalfEven (q * d) d = q := by
  simp [roundHalfEven, Nat.mul_div_cancel q hd, hd]

theorem roundHalfEven_one (m : Nat) : roundHalfEven m 1 = m := by
  simpa using roundHalfEven_mul m Nat.one_pos

/-- A rounded quotient is the quotient or one more. -/
theorem roundHalfEven_bounds (m d : Nat) :
    m / d ≤ roundHalfEven m d ∧ roundHalfEven m d ≤ m / d + 1 := by
  simp only [roundHalfEven]
  split_ifs <;> omega

theorem roundHalfEven_mono (h : m ≤ n) : roundHalfEven m d ≤ roundHalfEven n d := by
  rcases (Nat.div_le_div_right (c := d) h).lt_or_eq with hlow | hlow
  · have hm := (roundHalfEven_bounds m d).2
    have hn := (roundHalfEven_bounds n d).1
    omega
  · -- With one quotient the remainders decide, and they are ordered.
    have hmod : m % d ≤ n % d := by
      have hm := Nat.div_add_mod m d
      have hn := Nat.div_add_mod n d
      rw [hlow] at hm
      omega
    simp only [roundHalfEven, hlow]
    split_ifs <;> omega

end Decimal

namespace Double

open Decimal Float.Model Float.Model.UnpackedFloat

/-! ## Shifts -/

/-- Behind a shift the round bit is the last bit dropped, and the sticky bit
says whether any before it was set. -/
theorem shiftRight_succ (m k : Nat) :
    (⟨m, false, false⟩ : ExtendedMantissa) >>> (k + 1) =
      ⟨m / 2 ^ (k + 1), m / 2 ^ k % 2 != 0, m % 2 ^ k != 0⟩ := by
  induction k with
  | zero =>
      show ExtendedMantissa.shiftRightOne ⟨m, false, false⟩ = _
      simp [ExtendedMantissa.shiftRightOne, Nat.mod_one]
  | succ k ih =>
      have hshift : (⟨m, false, false⟩ : ExtendedMantissa) >>> (k + 1 + 1) =
          ((⟨m, false, false⟩ : ExtendedMantissa) >>> (k + 1)).shiftRightOne := rfl
      have hsticky : (m % 2 ^ (k + 1) != 0) = (m / 2 ^ k % 2 != 0 || m % 2 ^ k != 0) := by
        rw [Nat.mod_pow_succ, Bool.eq_iff_iff]
        simp
        tauto
      rw [hshift, ih, hsticky, ExtendedMantissa.shiftRightOne, Nat.div_div_eq_div_mul,
        ← Nat.pow_succ]

/-- Rounding behind a shift is rounding the quotient. -/
theorem roundedMantissa_shiftRight (m k : Nat) :
    ((⟨m, false, false⟩ : ExtendedMantissa) >>> k).roundedMantissa = roundHalfEven m (2 ^ k) := by
  cases k with
  | zero => exact (roundHalfEven_one m).symm
  | succ k =>
      have hmod : m % 2 ^ (k + 1) = m % 2 ^ k + 2 ^ k * (m / 2 ^ k % 2) := Nat.mod_pow_succ
      have hlow := Nat.mod_lt m (Nat.two_pow_pos k)
      have hpow : 2 ^ (k + 1) = 2 * 2 ^ k := Nat.pow_succ'
      rw [shiftRight_succ, ExtendedMantissa.roundedMantissa]
      simp only [roundHalfEven]
      rcases Nat.mod_two_eq_zero_or_one (m / 2 ^ k) with hround | hround <;>
        rcases Nat.eq_zero_or_pos (m % 2 ^ k) with hsticky | hsticky
      · rw [if_pos (by rw [hmod, hround]; omega), hround, hsticky]
        rfl
      · rw [if_pos (by rw [hmod, hround]; omega), hround, bne_iff_ne.mpr hsticky.ne']
        rfl
      · rw [if_neg (by rw [hmod, hround]; omega), if_neg (by rw [hmod, hround]; omega), hround,
          hsticky]
        show m / 2 ^ (k + 1) + m / 2 ^ (k + 1) % 2 = _
        split <;> omega
      · rw [if_neg (by rw [hmod, hround]; omega), if_pos (by rw [hmod, hround]; omega), hround,
          bne_iff_ne.mpr hsticky.ne']
        rfl

/-! ## Mantissas of 53 bits -/

/-- The bits are brought down to 53, with the exponent raised for those
dropped. -/
theorem shiftToTargetExponent_eq {m k : Nat} {e : Int} (hm : m.log2 = 52 + k)
    (he : -1074 ≤ e + k) :
    shiftToTargetExponent .binary64 m e .exact =
      ((⟨m, false, false⟩ : ExtendedMantissa) >>> k, e + k) := by
  have htarget : Format.binary64.targetExponent (totalExponent m e) = e + k := by
    show max ((m.log2 : Int) + 1 + e - 53) (-1074) = e + k
    rw [hm]
    omega
  have hshift : (e + k - e).toNat = k := by omega
  rw [shiftToTargetExponent, htarget, shiftToExponent, hshift]
  rfl

/-- Exponent and mantissa of `q * 2 ^ e`, where a mantissa of one bit too many
is carried into the exponent. -/
def carry (q : Nat) (e : Int) : Int × Nat := if q = 2 ^ 53 then (e + 1, 2 ^ 52) else (e, q)

theorem carry_of_lt {q : Nat} {e : Int} (h : q < 2 ^ 53) : carry q e = (e, q) := if_neg h.ne

/-- The mantissa has 53 bits. -/
theorem carry_bounds {q : Nat} {e : Int} (h : 2 ^ 52 ≤ q) (h' : q ≤ 2 ^ 53) :
    2 ^ 52 ≤ (carry q e).2 ∧ (carry q e).2 < 2 ^ 53 := by
  unfold carry
  split_ifs <;> omega

/-- A mantissa that has overflowed is shifted once more. -/
theorem shiftToTargetExponent_carry {q : Nat} {e : Int} (h : 2 ^ 52 ≤ q) (h' : q ≤ 2 ^ 53)
    (he : -1074 ≤ e) :
    (shiftToTargetExponent .binary64 q e .exact).1.mantissa = (carry q e).2 ∧
      (shiftToTargetExponent .binary64 q e .exact).2 = (carry q e).1 := by
  obtain rfl | hlt := h'.eq_or_lt
  · have hshift := shiftToTargetExponent_eq (e := e) (show (2 ^ 53).log2 = 52 + 1 by decide)
      (by omega)
    rw [hshift]
    exact ⟨rfl, rfl⟩
  · have hlog : q.log2 = 52 + 0 := (Nat.log2_eq_iff (by omega)).mpr ⟨h, hlt⟩
    rw [shiftToTargetExponent_eq hlog (by omega), carry_of_lt hlt]
    exact ⟨rfl, Int.add_zero e⟩

/-- A number of 53 bits, and of more for each bit of a power of two, is
rounded to a mantissa of 53 bits or to the next power. -/
theorem roundHalfEven_mantissa {m k : Nat} (hm : m.log2 = 52 + k) :
    2 ^ 52 ≤ roundHalfEven m (2 ^ k) ∧ roundHalfEven m (2 ^ k) ≤ 2 ^ 53 := by
  have hne : m ≠ 0 := by
    rintro rfl
    rw [Nat.log2_zero] at hm
    omega
  obtain ⟨hlow, hhigh⟩ := (Nat.log2_eq_iff hne).mp hm
  have hpow := Nat.two_pow_pos k
  rw [Nat.pow_add] at hlow
  rw [Nat.add_right_comm, Nat.pow_add] at hhigh
  constructor
  · rw [← roundHalfEven_mul (2 ^ 52) hpow]
    exact roundHalfEven_mono hlow
  · rw [← roundHalfEven_mul (2 ^ 53) hpow]
    exact roundHalfEven_mono hhigh.le

/-- A number is rounded by cutting it to 53 bits, with `r` the exponent and
the mantissa that this leaves. -/
theorem roundWithAccuracy_eq (s : Sign) {m k : Nat} {e : Int} {r : Int × Nat}
    (hm : m.log2 = 52 + k) (he : -1074 ≤ e + k)
    (hr : carry (roundHalfEven m (2 ^ k)) (e + k) = r) :
    ∃ h, roundWithAccuracy .binary64 s m e .exact = .finite s r.2 r.1 h := by
  subst hr
  obtain ⟨hlow, hhigh⟩ := roundHalfEven_mantissa hm
  have hpos := (carry_bounds (e := e + k) hlow hhigh).1
  obtain ⟨hmantissa, hexponent⟩ := shiftToTargetExponent_carry hlow hhigh he
  refine ⟨by omega, ?_⟩
  rw [roundWithAccuracy, shiftToTargetExponent_eq hm he]
  simp only [roundedMantissa_shiftRight, hmantissa, hexponent]
  exact dif_neg (by omega)

/-! ## Stored doubles -/

/-- A double with 53 bits of mantissa is read back as it was stored. -/
theorem unpack_pack (s : Sign) {m : Nat} {e : Int} (h : 0 < m) (hm : 2 ^ 52 ≤ m)
    (hm' : m < 2 ^ 53) (he : -1074 ≤ e) (he' : e ≤ 971) :
    (Float.Model.pack (.finite s m e h)).unpack = .finite s m e h := by
  have hlog : m.log2 + 1 = Format.binary64.mantissaBits := by
    rw [(Nat.log2_eq_iff h.ne').mpr ⟨hm, hm'⟩]
    rfl
  obtain ⟨biased, hbiased⟩ : ∃ n : Nat, e + 1023 + 52 = n := ⟨(e + 1075).toNat, by omega⟩
  have hpack : UnpackedFloat.pack .binary64 (.finite s m e h) =
      packComponents .binary64 s (.ofNat 11 biased) (.ofNat 52 m) := by
    have hexponent : (e + Format.binary64.exponentBias +
        Format.binary64.mantissaBitsWithoutImplicit).toNat = biased := by
      show (e + 1023 + 52).toNat = biased
      omega
    simp only [UnpackedFloat.pack, hexponent, hlog, if_true]
    exact if_neg (by show ¬ 2 ^ 11 ≤ biased + 1; omega)
  have hread : (BitVec.ofNat 11 biased).toNat = biased := by
    rw [BitVec.toNat_ofNat]
    omega
  have hmantissa : (1#1 ++ BitVec.ofNat 52 m).toNat = m := by
    have hlow : (BitVec.ofNat 52 m).toNat < 2 ^ 52 := BitVec.isLt _
    rw [BitVec.toNat_append, ← Nat.shiftLeft_add_eq_or_of_lt hlow, BitVec.toNat_ofNat]
    show 2 ^ 52 + m % 2 ^ 52 = m
    omega
  show UnpackedFloat.unpack .binary64 (UnpackedFloat.pack .binary64 (.finite s m e h)) = _
  rw [hpack, UnpackedFloat.unpack]
  simp only [unpackMantissa_packComponents, unpackExponent_packComponents,
    unpackSign_packComponents, Sign.ofBitVec_toBitVec]
  -- The exponent is neither that of the infinities nor that of zero.
  rw [if_neg fun hones => by
      have := congrArg BitVec.toNat hones
      rw [hread] at this
      exact absurd this (by show biased ≠ 2047; omega),
    if_neg fun hzeros => by
      have := congrArg BitVec.toNat hzeros
      rw [hread] at this
      exact absurd this (by show biased ≠ 0; omega),
    UnpackedFloat.finite.injEq]
  refine ⟨rfl, hmantissa, ?_⟩
  rw [hread]
  show (biased : Int) - (1023 + 52) = e
  omega

/-! ## Whole numbers -/

/-- Exponent and mantissa of the double nearest to a whole number. -/
def magnitude (n : Nat) : Int × Nat :=
  carry (roundHalfEven (n * 2 ^ 53) (2 ^ (n.log2 + 1))) (n.log2 - 52)

theorem log2_mul_two_pow {n : Nat} (hn : n ≠ 0) (k : Nat) : (n * 2 ^ k).log2 = n.log2 + k := by
  have hpow := Nat.two_pow_pos k
  have hne : n * 2 ^ k ≠ 0 := Nat.mul_ne_zero hn hpow.ne'
  obtain ⟨hlow, hhigh⟩ := (Nat.log2_eq_iff hn).mp rfl
  rw [Nat.log2_eq_iff hne, Nat.pow_add, Nat.add_right_comm, Nat.pow_add]
  exact ⟨Nat.mul_le_mul_right _ hlow, Nat.mul_lt_mul_of_pos_right hhigh hpow⟩

theorem magnitude_bounds {n : Nat} (hn : n ≠ 0) :
    2 ^ 52 ≤ (magnitude n).2 ∧ (magnitude n).2 < 2 ^ 53 := by
  have hlog : (n * 2 ^ 53).log2 = 52 + (n.log2 + 1) := by
    rw [log2_mul_two_pow hn]
    omega
  obtain ⟨hlow, hhigh⟩ := roundHalfEven_mantissa hlog
  exact carry_bounds hlow hhigh

/-- The mantissa of a whole number of 53 bits is the number, shifted up. -/
theorem mantissa_lt {n : Nat} (h : n < 2 ^ 53) : n * 2 ^ (52 - n.log2) < 2 ^ 53 := by
  obtain rfl | hn := eq_or_ne n 0
  · decide
  have hlog : n.log2 ≤ 52 := Nat.lt_succ_iff.mp ((Nat.log2_lt hn).mpr h)
  have hne : n * 2 ^ (52 - n.log2) ≠ 0 := Nat.mul_ne_zero hn (Nat.two_pow_pos _).ne'
  rw [← Nat.log2_lt hne, log2_mul_two_pow hn]
  omega


theorem magnitude_of_lt {n : Nat} (h : n < 2 ^ 53) :
    magnitude n = ((n.log2 : Int) - 52, n * 2 ^ (52 - n.log2)) := by
  obtain rfl | hn := eq_or_ne n 0
  · rfl
  have hlog : n.log2 ≤ 52 := Nat.lt_succ_iff.mp ((Nat.log2_lt hn).mpr h)
  have hshift : n * 2 ^ 53 = n * 2 ^ (52 - n.log2) * 2 ^ (n.log2 + 1) := by
    rw [Nat.mul_assoc, ← Nat.pow_add, show 52 - n.log2 + (n.log2 + 1) = 53 by omega]
  rw [magnitude, hshift, roundHalfEven_mul _ (Nat.two_pow_pos _), carry_of_lt (mantissa_lt h)]

/-- The exponents stay far from those of the infinities. -/
theorem magnitude_exponent {n : Nat} (hn : n ≠ 0) (h : n < 2 ^ 64) :
    -52 ≤ (magnitude n).1 ∧ (magnitude n).1 ≤ 12 := by
  have hlog : n.log2 < 64 := (Nat.log2_lt hn).mpr h
  unfold magnitude carry
  split_ifs <;> constructor <;> dsimp only <;> omega

theorem unpack_pack_magnitude (s : Sign) {n : Nat} (hn : n ≠ 0) (hn' : n < 2 ^ 64)
    (h : 0 < (magnitude n).2) :
    (Float.Model.pack (.finite s (magnitude n).2 (magnitude n).1 h)).unpack =
      .finite s (magnitude n).2 (magnitude n).1 h := by
  obtain ⟨hlow, hhigh⟩ := magnitude_bounds hn
  obtain ⟨hmin, hmax⟩ := magnitude_exponent hn hn'
  exact unpack_pack s h hlow hhigh (by omega) (by omega)

/-- A whole number of 53 bits is converted with nothing to round. -/
theorem ofUInt64_eq {n : Nat} (hn : n ≠ 0) (h : n < 2 ^ 53) :
    ∃ h, UnpackedFloat.ofUInt64 .binary64 n.toUInt64 =
      .finite .positive (magnitude n).2 (magnitude n).1 h := by
  have hlog : n.log2 ≤ 52 := Nat.lt_succ_iff.mp ((Nat.log2_lt hn).mpr h)
  have hread : n.toUInt64.toNat = n := by
    rw [Nat.toUInt64, UInt64.toNat_ofNat']
    omega
  have hround : UnpackedFloat.ofUInt64 .binary64 n.toUInt64 =
      UnpackedFloat.round .binary64 .positive n 0 := by
    rw [UnpackedFloat.ofUInt64, hread, UnpackedFloat.ofNat, UnpackedFloat.ofInt,
      UnpackedFloat.normalize,
      show compare (n : Int) 0 = .gt from compare_gt_iff_gt.mpr (by omega)]
    rfl
  have htarget : Format.binary64.targetExponent (totalExponent n 0) = n.log2 - 52 := by
    show max ((n.log2 : Int) + 1 + 0 - 53) (-1074) = n.log2 - 52
    omega
  have hshift : (0 - ((n.log2 : Int) - 52)).toNat = 52 - n.log2 := by omega
  have hbits : (n <<< (52 - n.log2)).log2 = 52 + 0 := by
    rw [Nat.shiftLeft_eq, log2_mul_two_pow hn]
    omega
  have hcarry : carry (roundHalfEven (n <<< (52 - n.log2)) (2 ^ 0))
      (0 - (52 - n.log2 : Nat) + (0 : Nat)) = magnitude n := by
    rw [Nat.shiftLeft_eq, Nat.pow_zero, roundHalfEven_one, carry_of_lt (mantissa_lt h),
      magnitude_of_lt h, Prod.mk.injEq]
    exact ⟨by omega, rfl⟩
  rw [hround, UnpackedFloat.round]
  simp only [htarget, decreaseExponent, hshift]
  exact roundWithAccuracy_eq .positive hbits (by omega) hcarry

/-- Where a whole number is read with no power of ten, it is multiplied by the
double one. -/
theorem unpack_one : Float.exactlyRepresentablePowersOfTen[0].toModel.unpack =
    .finite .positive (2 ^ 52) (-52) (by decide) :=
  rfl

/-- Multiplied by one, a double is itself. -/
theorem mul_one_eq {m : Nat} {e : Int} (h : 0 < m) (hm : 2 ^ 52 ≤ m) (hm' : m < 2 ^ 53)
    (he : -1074 ≤ e) :
    UnpackedFloat.mul .binary64 (.finite .positive m e h)
      Float.exactlyRepresentablePowersOfTen[0].toModel.unpack = .finite .positive m e h := by
  have hbits : (m * 2 ^ 52).log2 = 52 + 52 := by
    rw [log2_mul_two_pow h.ne', (Nat.log2_eq_iff h.ne').mpr ⟨hm, hm'⟩]
  have hexponent : e + -52 + (52 : Nat) = e := by omega
  have hcarry : carry (roundHalfEven (m * 2 ^ 52) (2 ^ 52)) (e + -52 + (52 : Nat)) = (e, m) := by
    rw [roundHalfEven_mul _ (Nat.two_pow_pos _), carry_of_lt hm', hexponent]
  rw [unpack_one, UnpackedFloat.mul]
  exact (roundWithAccuracy_eq (.positive * .positive) hbits (by omega) hcarry).2

/-- Read as a decimal without a point, a whole number is taken with 53 bits
more. -/
theorem ofScientific_zero {n : Nat} (hn : n ≠ 0) (h : 0 < n <<< 53) :
    UnpackedFloat.ofScientific .binary64 n 0 = UnpackedFloat.mul .binary64
      (.finite .positive (n <<< 53) (-53) h) (.finite .positive (10 ^ 0) 0 (by decide)) := by
  have hsmall : ¬ (0 : Int) < -(2 ^ Format.binary64.exponentBits + (n.log2 : Int)) := by
    show ¬ (0 : Int) < -(2 ^ 11 + (n.log2 : Int))
    omega
  have hlarge : ¬ (0 : Int) > 2 ^ Format.binary64.exponentBits := by decide
  unfold UnpackedFloat.ofScientific
  rw [dif_neg hn, if_neg hlarge, if_neg hsmall, if_pos (Int.le_refl 0)]
  rfl

theorem ofScientific_eq {n : Nat} (hn : n ≠ 0) : ∃ h,
    UnpackedFloat.ofScientific .binary64 n 0 =
      .finite .positive (magnitude n).2 (magnitude n).1 h := by
  have hbits : (n <<< 53 * 10 ^ 0).log2 = 52 + (n.log2 + 1) := by
    rw [Nat.pow_zero, Nat.mul_one, Nat.shiftLeft_eq, log2_mul_two_pow hn]
    omega
  have hexponent : (-53 : Int) + 0 + (n.log2 + 1 : Nat) = n.log2 - 52 := by omega
  have hcarry : carry (roundHalfEven (n <<< 53 * 10 ^ 0) (2 ^ (n.log2 + 1)))
      (-53 + 0 + (n.log2 + 1 : Nat)) = magnitude n := by
    rw [hexponent, Nat.pow_zero, Nat.mul_one, Nat.shiftLeft_eq, magnitude]
  have hpos : 0 < n <<< 53 := by
    rw [Nat.shiftLeft_eq]
    exact Nat.mul_pos (Nat.pos_of_ne_zero hn) (Nat.two_pow_pos 53)
  have hsign : Sign.positive * Sign.positive = .positive := rfl
  rw [ofScientific_zero hn hpos, UnpackedFloat.mul, hsign]
  exact roundWithAccuracy_eq .positive hbits (by omega) hcarry

theorem unpack_mul (a b : Float.Model) : (a * b).unpack =
    (Float.Model.pack (UnpackedFloat.mul .binary64 a.unpack b.unpack)).unpack :=
  rfl

/-- Both ways to read a whole number give the nearest double: one of 53 bits
is converted, and any other is rounded. -/
theorem unpack_ofNat {n : Nat} (hn : n ≠ 0) (hn' : n < 2 ^ 64) :
    ∃ h, (Float.ofNat n).toModel.unpack = .finite .positive (magnitude n).2 (magnitude n).1 h := by
  have hread : Float.ofNat n = Float.ofScientific n false 0 := rfl
  rw [hread, Float.ofScientific]
  by_cases h : n < 2 ^ 53
  · obtain ⟨hpos, heq⟩ := ofUInt64_eq hn h
    obtain ⟨hlow, hhigh⟩ := magnitude_bounds hn
    have hmin := (magnitude_exponent hn hn').1
    have hconverted : n.toUInt64.toFloat.toModel.unpack =
        .finite .positive (magnitude n).2 (magnitude n).1 hpos := by
      rw [UInt64.toFloat, Float.Model.ofUInt64, heq, unpack_pack_magnitude .positive hn hn']
    have hproduct (a b : Float) : (a * b).toModel = a.toModel * b.toModel := rfl
    refine ⟨hpos, ?_⟩
    rw [dif_pos ⟨h, Nat.zero_le 22⟩]
    simp only [Bool.false_eq_true, if_false]
    rw [hproduct, unpack_mul, hconverted, mul_one_eq hpos hlow hhigh (le_trans (by decide) hmin)]
    exact unpack_pack_magnitude .positive hn hn' hpos
  · obtain ⟨hpos, heq⟩ := ofScientific_eq hn
    refine ⟨hpos, ?_⟩
    rw [dif_neg fun hfits => h hfits.1]
    show (Float.Model.ofScientific n 0).unpack = _
    rw [Float.Model.ofScientific, heq]
    exact unpack_pack_magnitude .positive hn hn' hpos

/-! ## The order of magnitudes -/

/-- Magnitudes are ordered by exponent, then by mantissa. -/
def rankOf (r : Int × Nat) : Int ×ₗ Int := toLex (r.1, (r.2 : Int))

theorem rankOf_le_iff {r r' : Int × Nat} :
    rankOf r ≤ rankOf r' ↔ r.1 < r'.1 ∨ r.1 = r'.1 ∧ r.2 ≤ r'.2 := by
  rw [rankOf, rankOf, Prod.Lex.toLex_le_toLex]
  simp only [Int.ofNat_le]

theorem carry_mono {q q' : Nat} {e : Int} (h : q ≤ q') (h' : q' ≤ 2 ^ 53) :
    rankOf (carry q e) ≤ rankOf (carry q' e) := by
  rw [rankOf_le_iff]
  unfold carry
  split_ifs <;> dsimp only <;> omega

/-- The least mantissa of an exponent follows all those of the exponent
before. -/
theorem carry_le_carry {q q' : Nat} {e e' : Int} (hq' : 2 ^ 52 ≤ q') (h : e < e') :
    rankOf (carry q e) ≤ rankOf (carry q' e') := by
  rw [rankOf_le_iff]
  unfold carry
  split_ifs <;> dsimp only <;> omega

theorem magnitude_mono {m n : Nat} (hm : m ≠ 0) (h : m ≤ n) :
    rankOf (magnitude m) ≤ rankOf (magnitude n) := by
  have hlog : m.log2 ≤ n.log2 :=
    (Nat.le_log2 (by omega)).mpr ((Nat.log2_self_le hm).trans h)
  have hbits {n : Nat} (hn : n ≠ 0) : (n * 2 ^ 53).log2 = 52 + (n.log2 + 1) := by
    rw [log2_mul_two_pow hn]
    omega
  have hn := roundHalfEven_mantissa (hbits (show n ≠ 0 by omega))
  have hm := roundHalfEven_mantissa (hbits hm)
  unfold magnitude
  rcases hlog.lt_or_eq with hlog | hlog
  · exact carry_le_carry hn.1 (by omega)
  · rw [hlog] at hm ⊢
    exact carry_mono (roundHalfEven_mono (Nat.mul_le_mul_right _ h)) hn.2

/-- Up to the first power of two with no bit to spare, magnitudes differ. -/
theorem magnitude_inj {m n : Nat} (hm : m ≠ 0) (hn : n ≠ 0) (hm' : m ≤ 2 ^ 53)
    (hn' : n ≤ 2 ^ 53) (h : magnitude m = magnitude n) : m = n := by
  have htop : magnitude (2 ^ 53) = (1, 2 ^ 52) := by decide +kernel
  have hbelow {k : Nat} (hk : k ≠ 0) (hk' : k < 2 ^ 53) : (magnitude k).1 ≤ 0 := by
    have hlog := (Nat.log2_lt hk).mpr hk'
    rw [magnitude_of_lt hk']
    show (k.log2 : Int) - 52 ≤ 0
    omega
  rcases hm'.lt_or_eq with hlt | rfl <;> rcases hn'.lt_or_eq with hlt' | rfl
  · rw [magnitude_of_lt hlt, magnitude_of_lt hlt', Prod.mk.injEq] at h
    obtain ⟨hexponent, hmantissa⟩ := h
    have hlog : m.log2 = n.log2 := by omega
    rw [hlog] at hmantissa
    exact Nat.eq_of_mul_eq_mul_right (Nat.two_pow_pos _) hmantissa
  · have := hbelow hm hlt
    rw [h, htop] at this
    exact absurd this (by decide)
  · have := hbelow hn hlt'
    rw [← h, htop] at this
    exact absurd this (by decide)
  · rfl

/-! ## Integers -/

/-- The rank of an integer among the doubles: by its sign, then by its
magnitude. -/
def place (n : Int) : Int ×ₗ Int ×ₗ Int :=
  toLex (n.sign, toLex (n.sign * (magnitude n.natAbs).1, n.sign * (magnitude n.natAbs).2))

theorem rank?_ofInt {n : Int} (h : n.natAbs < 2 ^ 64) :
    Number.rank? (Float.ofInt n).toModel.unpack = some (place n) := by
  match n with
  | .ofNat 0 => rfl
  | .ofNat (n + 1) =>
      obtain ⟨hpos, heq⟩ := unpack_ofNat n.succ_ne_zero h
      have hplace : place (.ofNat (n + 1)) = toLex (1, rankOf (magnitude (n + 1))) := by
        simp only [place, Int.sign, Int.one_mul]
        rfl
      rw [Float.ofInt, heq, hplace]
      rfl
  | .negSucc n =>
      obtain ⟨hpos, heq⟩ := unpack_ofNat n.succ_ne_zero h
      have hneg : (Float.ofInt (.negSucc n)).toModel.unpack =
          .finite .negative (magnitude (n + 1)).2 (magnitude (n + 1)).1 hpos := by
        show (Float.Model.pack (Float.ofNat (n + 1)).toModel.unpack.neg).unpack = _
        rw [heq]
        exact unpack_pack_magnitude .negative n.succ_ne_zero h hpos
      have hplace : place (.negSucc n) =
          toLex (-1, toLex (-(magnitude (n + 1)).1, -((magnitude (n + 1)).2 : Int))) := by
        simp only [place, Int.sign, Int.neg_one_mul]
        rfl
      rw [hneg, hplace]
      rfl

theorem place_mono {m n : Int} (h : m ≤ n) : place m ≤ place n := by
  rw [place, place, Prod.Lex.toLex_le_toLex, Prod.Lex.toLex_le_toLex]
  rcases lt_trichotomy m 0 with hm | rfl | hm
  · rcases lt_or_ge n 0 with hn | hn
    · have hmagnitude := rankOf_le_iff.mp
        (magnitude_mono (m := n.natAbs) (n := m.natAbs) (by omega) (by omega))
      rw [Int.sign_eq_neg_one_of_neg hm, Int.sign_eq_neg_one_of_neg hn]
      dsimp only
      omega
    · have hsign : -1 < n.sign := by
        have := Int.sign_nonneg_iff.mpr hn
        omega
      rw [Int.sign_eq_neg_one_of_neg hm]
      exact .inl hsign
  · rcases h.eq_or_lt with rfl | hn
    · exact .inr ⟨rfl, .inr ⟨rfl, le_rfl⟩⟩
    · rw [Int.sign_eq_one_of_pos hn]
      exact .inl Int.zero_lt_one
  · have hmagnitude := rankOf_le_iff.mp
      (magnitude_mono (m := m.natAbs) (n := n.natAbs) (by omega) (by omega))
    rw [Int.sign_eq_one_of_pos hm, Int.sign_eq_one_of_pos (hm.trans_le h)]
    dsimp only
    omega

theorem place_inj {m n : Int} (hm : m.natAbs ≤ 2 ^ 53) (hn : n.natAbs ≤ 2 ^ 53)
    (h : place m = place n) : m = n := by
  simp only [place, EmbeddingLike.apply_eq_iff_eq, Prod.mk.injEq] at h
  obtain ⟨hsign, hexponent, hmantissa⟩ := h
  rw [hsign] at hexponent hmantissa
  obtain rfl | hne := eq_or_ne n 0
  · exact Int.sign_eq_zero_iff_zero.mp hsign
  · have hcancel : n.sign ≠ 0 := mt Int.sign_eq_zero_iff_zero.mp hne
    have hne' : m ≠ 0 := mt Int.sign_eq_zero_iff_zero.mpr (hsign ▸ hcancel)
    have hmagnitude : magnitude m.natAbs = magnitude n.natAbs :=
      Prod.ext (Int.eq_of_mul_eq_mul_left hcancel hexponent)
        (Int.ofNat_inj.mp (Int.eq_of_mul_eq_mul_left hcancel hmantissa))
    have habs := magnitude_inj (Int.natAbs_ne_zero.mpr hne') (Int.natAbs_ne_zero.mpr hne) hm hn
      hmagnitude
    rw [← Int.sign_mul_natAbs m, ← Int.sign_mul_natAbs n, hsign, habs]

/-- The doubles of two integers lie as the integers do, or are equal. -/
theorem ofInt_le_ofInt {m n : Int} (hm : m.natAbs < 2 ^ 64) (hn : n.natAbs < 2 ^ 64)
    (h : m ≤ n) : Float.ofInt m ≤ Float.ofInt n :=
  Number.float_le_iff.mpr ⟨place m, place n, rank?_ofInt hm, rank?_ofInt hn, place_mono h⟩

/-- No two integers of 53 bits have one double. -/
theorem le_of_ofInt_le_ofInt {m n : Int} (hm : m.natAbs ≤ 2 ^ 53) (hn : n.natAbs ≤ 2 ^ 53)
    (h : Float.ofInt m ≤ Float.ofInt n) : m ≤ n := by
  obtain ⟨x, y, hx, hy, hxy⟩ := Number.float_le_iff.mp h
  rw [rank?_ofInt (by omega), Option.some.injEq] at hx hy
  subst hx hy
  by_contra hlt
  have hplace := hxy.antisymm (place_mono (by omega))
  exact hlt (place_inj hm hn hplace).le

end Double

end QueryPlanner

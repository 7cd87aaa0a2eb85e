import Lox.Decimal.Binary
import Mathlib

/-!
# Rounding keeps whole numbers whole

A run of decimal digits is read as the nearest binary64 number. Rounding shifts a significand right
until 53 bits are left: if the exponent ends below zero, only zeros were shifted out, and the number
is as whole as before (`whole_round`).
-/

namespace Lox.Decimal

open Float.Model Float.Model.UnpackedFloat

/-! ### Whole numbers -/

/-- The number `m · 2 ^ q` is whole. -/
def IsWholeAt (m : Nat) (q : Int) : Prop :=
  2 ^ (-q).toNat ∣ m

/-- An unpacked number is **whole**: it is zero or infinite, or its significand has 53 bits of which
the exponent asks for no fraction. It has no sign. -/
inductive Whole : UnpackedFloat → Prop
  | zero : Whole (.zero .positive)
  | infinity : Whole (.infinity .positive)
  | finite {m : Nat} {q : Int} (hm : 0 < m) (hlog : m.log2 = 52) (hwhole : IsWholeAt m q) :
      Whole (.finite .positive m q hm)

theorem isWholeAt_of_nonneg {m : Nat} {q : Int} (h : 0 ≤ q) : IsWholeAt m q := by
  rw [IsWholeAt, Int.toNat_eq_zero.mpr (by omega), Nat.pow_zero]
  exact Nat.one_dvd m

/-- The exponent of a whole number is not far below zero. -/
theorem IsWholeAt.neg_log2_le {m : Nat} {q : Int} (h : IsWholeAt m q) (hm : 0 < m) :
    -(m.log2 : Int) ≤ q := by
  have hpow : 2 ^ (-q).toNat ≤ m := Nat.le_of_dvd hm h
  have hlog : (-q).toNat ≤ m.log2 := (Nat.le_log2 hm.ne').mpr hpow
  omega

/-- Bits that a whole number has to the right of its point are zero. -/
theorem IsWholeAt.two_pow_dvd {m k : Nat} {q : Int} (h : IsWholeAt m q) (hq : q + k ≤ 0) :
    2 ^ k ∣ m :=
  (Nat.pow_dvd_pow 2 (by omega)).trans h

theorem IsWholeAt.shiftRight {m : Nat} {q : Int} (h : IsWholeAt m q) (k : Nat) :
    IsWholeAt (m / 2 ^ k) (q + k) := by
  by_cases hq : 0 ≤ q + k
  · exact isWholeAt_of_nonneg hq
  · have hsplit : (-q).toNat = k + (-(q + k)).toNat := by omega
    have hdvd : 2 ^ k * 2 ^ (-(q + k)).toNat ∣ m := by rwa [← Nat.pow_add, ← hsplit]
    exact (Nat.dvd_div_iff_mul_dvd (h.two_pow_dvd (by omega))).mpr hdvd

theorem log2_mul_two_pow {m : Nat} (hm : m ≠ 0) (k : Nat) : (m * 2 ^ k).log2 = m.log2 + k := by
  induction k with
  | zero => rw [Nat.pow_zero, Nat.mul_one, Nat.add_zero]
  | succ k ih =>
    have hne : m * 2 ^ k ≠ 0 := Nat.mul_ne_zero hm (Nat.two_pow_pos k).ne'
    rw [Nat.pow_succ', Nat.mul_left_comm, Nat.log2_two_mul hne, ih, Nat.add_assoc]

/-- A significand shifted left by as much as its exponent goes down. -/
theorem IsWholeAt.mul_two_pow {m : Nat} {q : Int} (h : IsWholeAt m q) (k : Nat) :
    IsWholeAt (m * 2 ^ k) (q - k) := by
  have hdvd : 2 ^ (-(q - k)).toNat ∣ 2 ^ (-q).toNat * 2 ^ k := by
    rw [← Nat.pow_add]
    exact Nat.pow_dvd_pow 2 (by omega)
  exact hdvd.trans (Nat.mul_dvd_mul_right h _)

/-! ### Shifting a significand -/

theorem mantissa_shiftRight (m : ExtendedMantissa) (k : Nat) :
    (m >>> k).mantissa = m.mantissa / 2 ^ k := by
  induction k with
  | zero => exact (Nat.div_one _).symm
  | succ k ih =>
    calc (m >>> (k + 1)).mantissa = (m >>> k).mantissa / 2 := rfl
      _ = m.mantissa / 2 ^ (k + 1) := by rw [ih, Nat.div_div_eq_div_mul, Nat.pow_succ]

/-- Zeros are shifted out without a trace. -/
theorem shiftRight_of_dvd {m k : Nat} (h : 2 ^ k ∣ m) :
    (⟨m, false, false⟩ : ExtendedMantissa) >>> k = ⟨m / 2 ^ k, false, false⟩ := by
  induction k with
  | zero => exact congrArg (ExtendedMantissa.mk · false false) (Nat.div_one _).symm
  | succ k ih =>
    obtain ⟨n, rfl⟩ := h
    have hpos : 0 < 2 ^ k := Nat.two_pow_pos k
    have heven : 2 ^ (k + 1) * n / 2 ^ k = 2 * n := by
      rw [Nat.pow_succ, Nat.mul_assoc, Nat.mul_div_cancel_left _ hpos]
    calc (⟨2 ^ (k + 1) * n, false, false⟩ : ExtendedMantissa) >>> (k + 1)
        = ((⟨2 ^ (k + 1) * n, false, false⟩ : ExtendedMantissa) >>> k).shiftRightOne := rfl
      _ = (⟨2 * n, false, false⟩ : ExtendedMantissa).shiftRightOne := by
          rw [ih (Nat.pow_dvd_pow 2 k.le_succ |>.trans (Nat.dvd_mul_right _ _)), heven]
      _ = ⟨2 ^ (k + 1) * n / 2 ^ (k + 1), false, false⟩ := by
          rw [Nat.mul_div_cancel_left _ (Nat.two_pow_pos _)]
          simp [ExtendedMantissa.shiftRightOne]

theorem roundedMantissa_bounds (m : ExtendedMantissa) :
    m.mantissa ≤ m.roundedMantissa ∧ m.roundedMantissa ≤ m.mantissa + 1 := by
  obtain ⟨m, round, sticky⟩ := m
  have : m % 2 < 2 := Nat.mod_lt _ (by decide)
  cases round <;> cases sticky <;>
    simp only [ExtendedMantissa.roundedMantissa, ExtendedMantissa.accuracy,
      Accuracy.roundToNearestEven] <;> omega

/-- Shifting aims at 53 bits. -/
theorem shiftToTargetExponent_exact {m : Nat} {q : Int} (hlog : 52 ≤ m.log2)
    (hq : -1074 ≤ q + (m.log2 - 52 : Nat)) :
    shiftToTargetExponent Format.binary64 m q .exact =
      ((⟨m, false, false⟩ : ExtendedMantissa) >>> (m.log2 - 52), q + (m.log2 - 52 : Nat)) := by
  have htarget : Format.binary64.targetExponent (totalExponent m q) = q + (m.log2 - 52 : Nat) := by
    change max ((m.log2 : Int) + 1 + q - 53) (-1074) = _
    omega
  rw [shiftToTargetExponent, htarget, shiftToExponent]
  simp only [add_sub_cancel_left, Int.toNat_natCast, ExtendedMantissa.ofMantissaAndAccuracy]

/-! ### Rounding -/

theorem div_two_pow_bounds {m : Nat} (hlog : 52 ≤ m.log2) :
    2 ^ 52 ≤ m / 2 ^ (m.log2 - 52) ∧ m / 2 ^ (m.log2 - 52) < 2 ^ 53 := by
  have hm : m ≠ 0 := by
    rintro rfl
    exact absurd hlog (by decide)
  have hpos : 0 < 2 ^ (m.log2 - 52) := Nat.two_pow_pos _
  rw [Nat.le_div_iff_mul_le hpos, Nat.div_lt_iff_lt_mul hpos, ← Nat.pow_add, ← Nat.pow_add]
  constructor
  · rw [show 52 + (m.log2 - 52) = m.log2 by omega]
    exact Nat.log2_self_le hm
  · rw [show 53 + (m.log2 - 52) = m.log2 + 1 by omega]
    exact Nat.lt_log2_self

/-- The significand that the first shift leaves, rounded, is as whole as the one before. -/
theorem isWholeAt_roundedMantissa {m : Nat} {q : Int} (hwhole : IsWholeAt m q) (k : Nat) :
    IsWholeAt ((⟨m, false, false⟩ : ExtendedMantissa) >>> k).roundedMantissa (q + k) := by
  by_cases hq : 0 ≤ q + k
  · exact isWholeAt_of_nonneg hq
  · rw [shiftRight_of_dvd (hwhole.two_pow_dvd (by omega))]
    exact hwhole.shiftRight k

/-- **Rounding keeps whole numbers whole.** -/
theorem whole_round {m : Nat} {q : Int} (hwhole : IsWholeAt m q) (hlog : 52 ≤ m.log2) :
    Whole (roundWithAccuracy Format.binary64 .positive m q .exact) := by
  have hm : 0 < m := by
    rcases Nat.eq_zero_or_pos m with rfl | hm
    · exact absurd hlog (by decide)
    · exact hm
  have hbelow := hwhole.neg_log2_le hm
  obtain ⟨hlow, hhigh⟩ := div_two_pow_bounds hlog
  have hfirst := isWholeAt_roundedMantissa hwhole (m.log2 - 52)
  obtain ⟨hup, hdown⟩ := roundedMantissa_bounds
    ((⟨m, false, false⟩ : ExtendedMantissa) >>> (m.log2 - 52))
  rw [mantissa_shiftRight] at hup hdown
  rw [roundWithAccuracy, shiftToTargetExponent_exact hlog (by omega)]
  dsimp only at hup hdown hfirst ⊢
  generalize ((⟨m, false, false⟩ : ExtendedMantissa) >>> (m.log2 - 52)).roundedMantissa = r at *
  generalize q + (m.log2 - 52 : Nat) = p at *
  have hp := hfirst.neg_log2_le (by omega)
  -- A carry may have given 54 bits, of which the last is zero.
  have hr : r.log2 = 52 ∨ r = 2 ^ 53 := by
    by_cases h : r < 2 ^ 53
    · exact .inl ((Nat.log2_eq_iff (by omega)).mpr ⟨by omega, h⟩)
    · exact .inr (by omega)
  have hrlog : 52 ≤ r.log2 ∧ r.log2 ≤ 53 := by
    rcases hr with hr | rfl
    · omega
    · rw [Nat.log2_two_pow]
      decide
  have hfinal : (r / 2 ^ (r.log2 - 52)).log2 = 52 := by
    rcases hr with hr | rfl
    · rw [hr, Nat.sub_self, Nat.pow_zero, Nat.div_one, hr]
    · rw [Nat.log2_two_pow]
      decide
  rw [shiftToTargetExponent_exact hrlog.1 (by omega)]
  have hpos : r / 2 ^ (r.log2 - 52) ≠ 0 := by
    intro h
    rw [h] at hfinal
    exact absurd hfinal (by decide)
  simp only [mantissa_shiftRight, dif_neg hpos]
  exact .finite _ hfinal (hfirst.shiftRight _)

/-- Every natural number other than zero is whole when its significand is shifted left. -/
theorem whole_round_natCast {n : Nat} (hn : n ≠ 0) {k : Nat} (hk : 52 ≤ n.log2 + k) :
    Whole (roundWithAccuracy Format.binary64 .positive (n * 2 ^ k) (-k) .exact) := by
  have hwhole : IsWholeAt (n * 2 ^ k) (0 - k) := (isWholeAt_of_nonneg (le_refl 0)).mul_two_pow k
  rw [zero_sub] at hwhole
  exact whole_round hwhole (by rwa [log2_mul_two_pow hn])

/-! ### Packing -/

theorem toNat_significand (fraction : BitVec 52) :
    (1#1 ++ fraction).toNat = 2 ^ 52 + fraction.toNat := by
  rw [BitVec.toNat_append, ← Nat.shiftLeft_add_eq_or_of_lt fraction.isLt]
  rfl

/-- The components of a normal number. -/
theorem unpack_packComponents (s : Sign) {exponent : BitVec 11} (hzero : exponent ≠ 0#11)
    (hinfinite : exponent ≠ -1#11) (fraction : BitVec 52) :
    UnpackedFloat.unpack Format.binary64 (packComponents Format.binary64 s exponent fraction) =
      .finite s (2 ^ 52 + fraction.toNat) (exponent.toNat - 1075) (by omega) := by
  simp only [UnpackedFloat.unpack, unpackExponent_packComponents, unpackMantissa_packComponents,
    unpackSign_packComponents, if_neg hzero, if_neg hinfinite, Sign.ofBitVec_toBitVec,
    toNat_significand]
  rfl

/-- A whole number comes out of the packing as it went in, or as infinity. -/
theorem whole_unpack_pack {u : UnpackedFloat} (h : Whole u) :
    Whole (Float.Model.pack u).unpack := by
  cases h with
  | zero => exact .zero
  | infinity => exact .infinity
  | @finite m q hm hlog hwhole =>
    have hbelow := hwhole.neg_log2_le hm
    obtain ⟨hlow, hhigh⟩ := (Nat.log2_eq_iff hm.ne').mp hlog
    rw [Float.Model.unpack, Float.Model.pack]
    simp only [UnpackedFloat.pack]
    split
    · exact .infinity
    · rename_i hfits
      change ¬ 2048 ≤ (q + 1023 + 52).toNat + 1 at hfits
      rw [if_pos (show m.log2 + 1 = Format.binary64.mantissaBits by rw [hlog]; rfl)]
      have hexponent : (BitVec.ofNat 11 (q + 1023 + 52).toNat).toNat = (q + 1023 + 52).toNat := by
        rw [BitVec.toNat_ofNat, Nat.mod_eq_of_lt (by omega)]
      have hfraction : 2 ^ 52 + (BitVec.ofNat 52 m).toNat = m := by
        rw [BitVec.toNat_ofNat]
        omega
      change Whole (UnpackedFloat.unpack Format.binary64 (packComponents Format.binary64 .positive
        (BitVec.ofNat 11 (q + 1023 + 52).toNat) (BitVec.ofNat 52 m)))
      rw [unpack_packComponents]
      · refine .finite _ (by rw [hfraction, hlog]) ?_
        rw [hfraction, hexponent, show ((q + 1023 + 52).toNat : Int) - 1075 = q by omega]
        exact hwhole
      · intro h
        rw [h] at hexponent
        change 0 = _ at hexponent
        omega
      · intro h
        rw [h] at hexponent
        change 2047 = _ at hexponent
        omega

/-! ### The number of a run of digits -/

theorem unpack_one : (Float.ofBits 4607182418800017408).toModel.unpack =
    .finite .positive (2 ^ 52) (-52) (by decide) :=
  rfl

/-- Multiplication by one keeps whole numbers whole. -/
theorem whole_mul_one {u : UnpackedFloat} (h : Whole u) :
    Whole (UnpackedFloat.mul Format.binary64 u (.finite .positive (2 ^ 52) (-52) (by decide))) := by
  cases h with
  | zero => exact .zero
  | infinity => exact .infinity
  | @finite m q hm hlog hwhole =>
    exact whole_round (hwhole.mul_two_pow 52) (by rw [log2_mul_two_pow hm.ne', hlog]; decide)

/-- The nearest number to a natural number is whole. -/
theorem whole_ofNat (n : Nat) : Whole (UnpackedFloat.ofNat Format.binary64 n) := by
  by_cases hn : n = 0
  · subst hn
    exact .zero
  · have hpositive : compare (n : Int) 0 = .gt := Int.compare_eq_gt.mpr (by omega)
    rw [UnpackedFloat.ofNat, UnpackedFloat.ofInt, UnpackedFloat.normalize]
    simp only [hpositive]
    have hround : ∀ k : Nat, 52 ≤ n.log2 + k →
        Whole (roundWithAccuracy Format.binary64 .positive (n <<< k) (0 - k) .exact) := by
      intro k hk
      rw [Nat.shiftLeft_eq, zero_sub]
      exact whole_round_natCast hn hk
    refine hround _ ?_
    change 52 ≤ n.log2 + (0 - max ((n.log2 : Int) + 1 + 0 - 53) (-1074)).toNat
    omega

/-- The nearest number to the value of a run of digits is whole. -/
theorem whole_ofScientific (n : Nat) : Whole (Float.ofScientific n false 0).toModel.unpack := by
  rw [Float.ofScientific]
  split
  · change Whole (Float.Model.pack (UnpackedFloat.mul Format.binary64
      (Float.Model.pack (UnpackedFloat.ofNat Format.binary64 n.toUInt64.toNat)).unpack
      (Float.ofBits 4607182418800017408).toModel.unpack)).unpack
    rw [unpack_one]
    exact whole_unpack_pack (whole_mul_one (whole_unpack_pack (whole_ofNat _)))
  · refine whole_unpack_pack ?_
    change Whole (UnpackedFloat.ofScientific Format.binary64 n 0)
    by_cases hn : n = 0
    · subst hn
      exact .zero
    · have hlow : ¬ (0 : Int) < -(2 ^ Format.binary64.exponentBits + (n.log2 : Int)) := by
        change ¬ (0 : Int) < -(2048 + (n.log2 : Int))
        omega
      rw [UnpackedFloat.ofScientific, dif_neg hn, if_neg (by decide), if_neg hlow,
        if_pos (le_refl 0), UnpackedFloat.mul]
      simp only [Int.toNat_zero, Nat.pow_zero, Nat.mul_one, Nat.shiftLeft_eq, add_zero]
      exact whole_round_natCast hn (Nat.le_add_left _ _)

end Lox.Decimal

import Lox.Decimal.Style
import Lox.Proofs.Decimal.Rounded

/-!
# The text of whole numbers

A style that writes whole numbers with all their digits tells any two of them apart: the digits are
those of the number's value (`IsNatural.write_eq`), and two whole numbers of the same value are the
same number (`IsNatural.value_inj`).
-/

namespace Lox.Decimal

open Float.Model Float.Model.UnpackedFloat

/-! ### The parts of a number -/

theorem toNat_unpackMantissa (bits : UInt64) :
    (@unpackMantissa Format.binary64 bits.toBitVec).toNat =
      (bits &&& 0xFFFFFFFFFFFFF).toNat := by
  rw [unpackMantissa_def, BitVec.extractLsb'_toNat, UInt64.toNat_and]
  exact (Nat.and_two_pow_sub_one_eq_mod _ 52).symm

theorem toNat_unpackExponent (bits : UInt64) :
    (@unpackExponent Format.binary64 bits.toBitVec).toNat =
      ((bits >>> 52) &&& 0x7FF).toNat := by
  rw [unpackExponent_def, BitVec.extractLsb'_toNat, UInt64.toNat_and, UInt64.toNat_shiftRight]
  exact (Nat.and_two_pow_sub_one_eq_mod _ 11).symm

theorem ofBitVec_unpackSign_eq_positive_iff {bits : UInt64} :
    Sign.ofBitVec (@unpackSign Format.binary64 bits.toBitVec) = .positive ↔
      (bits >>> 63 == 1) = false := by
  have hbits : bits.toNat < 2 ^ 64 := bits.toNat_lt
  have hzero : @unpackSign Format.binary64 bits.toBitVec = 0#1 ↔
      (bits >>> 63 == 1) = false := by
    rw [unpackSign_def, ← BitVec.toNat_inj, BitVec.extractLsb'_toNat, beq_eq_false_iff_ne, ne_eq,
      ← UInt64.toNat_inj, UInt64.toNat_shiftRight]
    change bits.toNat >>> 63 % 2 ^ 1 = 0 ↔ ¬ bits.toNat >>> 63 = 1
    rw [Nat.shiftRight_eq_div_pow]
    omega
  rw [Sign.ofBitVec, ite_eq_left_iff, ← hzero]
  exact ⟨fun h => by_contra fun hne => Sign.noConfusion (h hne), fun h hne => absurd h hne⟩

/-- Zero and the numbers next to it. -/
theorem ofBits_of_exponent_eq_zero {bits : UInt64}
    (h : @unpackExponent Format.binary64 bits.toBitVec = 0#11) :
    Binary.ofBits bits = ⟨bits >>> 63 == 1,
      (@unpackMantissa Format.binary64 bits.toBitVec).toNat, -1074, false⟩ := by
  have hexponent : ((bits >>> 52) &&& 0x7FF).toNat = 0 := by
    rw [← toNat_unpackExponent, h]
    rfl
  rw [Binary.ofBits, if_pos hexponent, toNat_unpackMantissa]

/-- The numbers that leave out the first bit of their significand. -/
theorem ofBits_of_exponent_ne_zero {bits : UInt64}
    (h : @unpackExponent Format.binary64 bits.toBitVec ≠ 0#11) :
    ∃ narrow, Binary.ofBits bits = ⟨bits >>> 63 == 1,
      (1#1 ++ @unpackMantissa Format.binary64 bits.toBitVec).toNat,
      (@unpackExponent Format.binary64 bits.toBitVec).toNat - 1075, narrow⟩ := by
  have hexponent : ((bits >>> 52) &&& 0x7FF).toNat ≠ 0 := by
    rw [← toNat_unpackExponent]
    exact fun hzero => h (BitVec.eq_of_toNat_eq hzero)
  rw [Binary.ofBits, if_neg hexponent, toNat_significand, toNat_unpackMantissa,
    toNat_unpackExponent]
  exact ⟨_, rfl⟩

/-- The parts of a finite number are those that unpacking its bits gives. -/
theorem ofBits_of_unpack_finite {bits : UInt64} {m : Nat} {q : Int} {hm : 0 < m}
    (h : UnpackedFloat.unpack Format.binary64 bits.toBitVec = .finite .positive m q hm) :
    ∃ narrow, Binary.ofBits bits = ⟨false, m, q, narrow⟩ := by
  rw [UnpackedFloat.unpack] at h
  dsimp only at h
  split at h
  · split at h <;> cases h
  split at h
  · rename_i hexponent
    split at h
    · cases h
    · injection h with hsign hm hq
      rw [ofBits_of_exponent_eq_zero hexponent, ofBitVec_unpackSign_eq_positive_iff.mp hsign, hm,
        ← hq, hexponent]
      exact ⟨false, rfl⟩
  · rename_i hexponent
    injection h with hsign hm hq
    obtain ⟨narrow, hbits⟩ := ofBits_of_exponent_ne_zero hexponent
    rw [hbits, ofBitVec_unpackSign_eq_positive_iff.mp hsign, hm, ← hq]
    exact ⟨narrow, rfl⟩

theorem ofBits_of_unpack_zero {bits : UInt64}
    (h : UnpackedFloat.unpack Format.binary64 bits.toBitVec = .zero .positive) :
    Binary.ofBits bits = ⟨false, 0, -1074, false⟩ := by
  rw [UnpackedFloat.unpack] at h
  dsimp only at h
  split at h
  · split at h <;> cases h
  split at h
  · rename_i hexponent
    split at h
    · rename_i hmantissa
      injection h with hsign
      rw [ofBits_of_exponent_eq_zero hexponent, ofBitVec_unpackSign_eq_positive_iff.mp hsign,
        hmantissa]
      rfl
    · cases h
  · cases h

/-! ### The value of a whole number -/

/-- The value of an unpacked number that is whole; infinity has none. -/
def value : UnpackedFloat → Nat
  | .finite _ m q _ => Binary.magnitude ⟨false, m, q, false⟩
  | _ => 0

theorem isWhole_iff (x : Binary) : x.isWhole = true ↔ IsWholeAt x.m x.q := by
  rw [Binary.isWhole, Bool.or_eq_true, decide_eq_true_eq, beq_iff_eq, Nat.one_shiftLeft,
    ← Nat.dvd_iff_mod_eq_zero]
  exact or_iff_right_of_imp isWholeAt_of_nonneg

/-- The value on the exponent of the least whole number of 53 bits. -/
theorem value_mul_two_pow {s : Sign} {m : Nat} {q : Int} (hm : 0 < m) (hwhole : IsWholeAt m q)
    (hq : -52 ≤ q) : value (.finite s m q hm) * 2 ^ 52 = m * 2 ^ (q + 52).toNat := by
  rw [value, Binary.magnitude]
  dsimp only
  split
  · rw [Nat.shiftLeft_eq, Nat.mul_assoc, ← Nat.pow_add]
    congr 2
    omega
  · obtain ⟨n, hn⟩ := hwhole
    rw [Nat.shiftRight_eq_div_pow, hn, Nat.mul_div_cancel_left _ (Nat.two_pow_pos _),
      Nat.mul_comm _ n, Nat.mul_assoc, ← Nat.pow_add]
    congr 2
    omega

/-- Two whole numbers of the same value are the same. -/
theorem Whole.value_inj {u v : UnpackedFloat} (hu : Whole u) (hv : Whole v)
    (huf : u ≠ .infinity .positive) (hvf : v ≠ .infinity .positive) (h : value u = value v) :
    u = v := by
  have hne : ∀ {m : Nat} {q : Int} (hm : 0 < m), m.log2 = 52 → IsWholeAt m q →
      value (.finite .positive m q hm) ≠ 0 := by
    intro m q hm hlog hwhole hzero
    have hbelow := hwhole.neg_log2_le hm
    have hvalue := value_mul_two_pow (s := .positive) hm hwhole (by omega)
    rw [hzero, Nat.zero_mul] at hvalue
    exact Nat.mul_ne_zero hm.ne' (Nat.two_pow_pos _).ne' hvalue.symm
  cases hu with
  | infinity => exact absurd rfl huf
  | zero =>
    cases hv with
    | infinity => exact absurd rfl hvf
    | zero => rfl
    | finite hm hlog hwhole => exact absurd h.symm (hne hm hlog hwhole)
  | @finite m q hm hlog hwhole =>
    cases hv with
    | infinity => exact absurd rfl hvf
    | zero => exact absurd h (hne hm hlog hwhole)
    | @finite n p hn hnlog hnwhole =>
      have hq := hwhole.neg_log2_le hm
      have hp := hnwhole.neg_log2_le hn
      have hvalues : m * 2 ^ (q + 52).toNat = n * 2 ^ (p + 52).toNat := by
        rw [← value_mul_two_pow (s := .positive) hm hwhole (by omega), h,
          value_mul_two_pow hn hnwhole (by omega)]
      have hlogs := congrArg Nat.log2 hvalues
      rw [log2_mul_two_pow hm.ne', log2_mul_two_pow hn.ne', hlog, hnlog] at hlogs
      obtain rfl : q = p := by omega
      obtain rfl : m = n := Nat.eq_of_mul_eq_mul_right (Nat.two_pow_pos _) hvalues
      rfl

/-! ### The text -/

/-- A float is **natural** when it is finite, whole and without a sign. -/
structure IsNatural (x : Float) : Prop where
  /-- The number is whole or infinite. -/
  whole : Whole x.toModel.unpack
  /-- The number is finite. -/
  finite : (Binary.ofFloat? x).isSome = true

namespace IsNatural

variable {x y : Float}

theorem ofFloat?_eq (h : IsNatural x) : Binary.ofFloat? x = some (Binary.ofBits x.toBits) := by
  have hfinite := h.finite
  rw [Binary.ofFloat?] at hfinite ⊢
  split
  · rename_i hneither
    rw [if_pos hneither] at hfinite
    cases hfinite
  · rfl

theorem ne_infinity (h : IsNatural x) : x.toModel.unpack ≠ .infinity .positive := by
  intro hinfinity
  have hisInf : x.isInf = true := by
    rw [Float.isInf, Float.Model.isInf, hinfinity]
    rfl
  have hfinite := h.finite
  rw [Binary.ofFloat?, hisInf, Bool.or_true, if_pos rfl] at hfinite
  cases hfinite

/-- Equal values make equal numbers. -/
theorem value_inj (hx : IsNatural x) (hy : IsNatural y)
    (h : value x.toModel.unpack = value y.toModel.unpack) : x = y := by
  have hunpack := hx.whole.value_inj hy.whole hx.ne_infinity hy.ne_infinity h
  have hbits := (unpack_inj_of_valid x.toModel.valid y.toModel.valid).mp hunpack
  exact Float.toBits_inj.mp (UInt64.toBitVec_inj.mp hbits)

/-- The parts of a natural number: it has no sign, it is whole, and its magnitude is its value. -/
theorem parts (h : IsNatural x) : (Binary.ofBits x.toBits).negative = false ∧
    (Binary.ofBits x.toBits).isWhole = true ∧
    (Binary.ofBits x.toBits).magnitude = value x.toModel.unpack := by
  have hwhole := h.whole
  generalize hu : x.toModel.unpack = u at hwhole
  cases hwhole with
  | infinity => exact absurd hu h.ne_infinity
  | zero =>
    have hbits : Binary.ofBits x.toBits = ⟨false, 0, -1074, false⟩ := ofBits_of_unpack_zero hu
    rw [hbits]
    exact ⟨rfl, (isWhole_iff _).mpr (Nat.dvd_zero _), by decide⟩
  | @finite m q hm hlog hwhole =>
    have hbits : ∃ narrow, Binary.ofBits x.toBits = ⟨false, m, q, narrow⟩ :=
      ofBits_of_unpack_finite hu
    obtain ⟨narrow, hbits⟩ := hbits
    rw [hbits]
    exact ⟨rfl, (isWhole_iff _).mpr hwhole, rfl⟩

variable {style : NumberStyle}

/-- **Natural numbers are written with the digits of their value.** -/
theorem write_eq (h : IsNatural x) (hexact : style.exactBelow = none) :
    style.write x = toString (value x.toModel.unpack) ++ style.wholeMark := by
  obtain ⟨hsign, hwhole, hmagnitude⟩ := h.parts
  rw [NumberStyle.write, h.ofFloat?_eq]
  simp only [NumberStyle.writeFinite, hsign, hwhole, hexact, hmagnitude, Bool.false_and,
    Bool.false_eq_true, if_false, Bool.and_true, if_true, String.empty_append]

/-- **Two natural numbers are never written alike.** -/
theorem write_inj (hx : IsNatural x) (hy : IsNatural y) (hexact : style.exactBelow = none)
    (h : style.write x = style.write y) : x = y := by
  rw [hx.write_eq hexact, hy.write_eq hexact, String.append_left_inj] at h
  exact hx.value_inj hy (Nat.repr_injective h)

end IsNatural

theorem isNatural_ofDigits {digits : List Char}
    (h : (Binary.ofFloat? (ofDigits digits)).isSome = true) : IsNatural (ofDigits digits) :=
  ⟨whole_ofScientific _, h⟩

end Lox.Decimal

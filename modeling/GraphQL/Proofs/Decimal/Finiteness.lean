import GraphQL.Json
import Mathlib

/-!
# Whole numbers of 64 bits are finite

The floating-point number that is nearest to a whole number of 64 bits is finite. Each rounding step
adds at most the length of the mantissa to the exponent, so the exponent stays far below the
greatest one of the format.
-/

namespace GraphQL

open Float.Model UnpackedFloat

/-- Zero, or a number with a mantissa of so many bits and an exponent up to the bound. -/
inductive HasSize (bits : Nat) (bound : Int) : UnpackedFloat → Prop
  | zero (sign : Sign) : HasSize bits bound (.zero sign)
  | finite (sign : Sign) {mantissa : Nat} {exponent : Int} (positive : 0 < mantissa)
      (short : mantissa < 2 ^ bits) (low : exponent ≤ bound) :
      HasSize bits bound (.finite sign mantissa exponent positive)

theorem HasSize.mono {bits : Nat} {bound limit : Int} {number : UnpackedFloat}
    (sized : HasSize bits bound number) (le : bound ≤ limit) : HasSize bits limit number := by
  cases sized with
  | zero sign => exact .zero sign
  | finite sign positive short low => exact .finite sign positive short (low.trans le)

theorem HasSize.neg {bits : Nat} {bound : Int} {number : UnpackedFloat}
    (sized : HasSize bits bound number) : HasSize bits bound number.neg := by
  cases sized with
  | zero sign => exact .zero _
  | finite sign positive short low => exact .finite _ positive short low

/-! ## Rounding -/

theorem mantissa_shiftRight_le (number : ExtendedMantissa) (count : Nat) :
    (number >>> count).mantissa ≤ number.mantissa := by
  induction count with
  | zero => exact Nat.le_refl _
  | succ count ih => exact (Nat.div_le_self (number >>> count).mantissa 2).trans ih

theorem mantissa_ofMantissaAndAccuracy (mantissa : Nat) (accuracy : Accuracy) :
    (ExtendedMantissa.ofMantissaAndAccuracy mantissa accuracy).mantissa = mantissa := by
  cases accuracy with
  | exact => rfl
  | inexact order => cases order <;> rfl

theorem roundedMantissa_le (number : ExtendedMantissa) :
    number.roundedMantissa ≤ number.mantissa + 1 := by
  unfold ExtendedMantissa.roundedMantissa Accuracy.roundToNearestEven
  split <;> omega

theorem targetExponent_binary64 (exponent : Int) :
    Format.binary64.targetExponent exponent = max (exponent - 53) (-1074) :=
  rfl

/-- Moving a mantissa to its exponent raises the exponent by the length of the mantissa at most. -/
theorem shiftToTargetExponent_le {bits mantissa : Nat} {bound exponent : Int}
    (short : mantissa ≤ 2 ^ bits) (low : exponent ≤ bound) (nonneg : 0 ≤ bound)
    (accuracy : Accuracy) :
    (shiftToTargetExponent .binary64 mantissa exponent accuracy).1.mantissa ≤ mantissa ∧
      (shiftToTargetExponent .binary64 mantissa exponent accuracy).2 ≤ bound + bits := by
  have length : mantissa.log2 < bits + 1 := by
    by_cases zero : mantissa = 0
    · rw [zero, Nat.log2_zero]
      omega
    · rw [Nat.log2_lt zero, Nat.pow_succ]
      have positive := Nat.two_pow_pos bits
      omega
  constructor
  · exact (mantissa_shiftRight_le _ _).trans (mantissa_ofMantissaAndAccuracy mantissa accuracy).le
  · simp only [shiftToTargetExponent, shiftToExponent, targetExponent_binary64, totalExponent]
    omega

theorem roundWithAccuracy_hasSize {bits mantissa : Nat} {bound exponent : Int}
    (short : mantissa < 2 ^ bits) (low : exponent ≤ bound) (nonneg : 0 ≤ bound) (sign : Sign)
    (accuracy : Accuracy) :
    HasSize (bits + 1) (bound + 2 * bits)
      (roundWithAccuracy .binary64 sign mantissa exponent accuracy) := by
  have first := shiftToTargetExponent_le short.le low nonneg accuracy
  have rounded := roundedMantissa_le
    (shiftToTargetExponent .binary64 mantissa exponent accuracy).1
  -- Rounding up may give the mantissa one more bit, so it is moved once more.
  have roundedShort : (shiftToTargetExponent .binary64 mantissa exponent
      accuracy).1.roundedMantissa ≤ 2 ^ bits := by
    omega
  have second := shiftToTargetExponent_le roundedShort first.2 (by omega) .exact
  simp only [roundWithAccuracy]
  split
  · exact .zero sign
  · exact .finite sign _ (by rw [Nat.pow_succ]; omega) (by omega)

theorem mul_hasSize {bits others : Nat} {bound limit : Int} {number other : UnpackedFloat}
    (sized : HasSize bits bound number) (otherSized : HasSize others limit other)
    (nonneg : 0 ≤ bound + limit) :
    HasSize (bits + others + 1) (bound + limit + 2 * (bits + others : Nat))
      (UnpackedFloat.mul .binary64 number other) := by
  cases sized with
  | zero sign => cases otherSized <;> exact .zero _
  | finite sign positive short low => cases otherSized with
    | zero => exact .zero _
    | finite otherSign otherPositive otherShort otherLow =>
      refine roundWithAccuracy_hasSize ?_ (add_le_add low otherLow) nonneg _ _
      rw [Nat.pow_add]
      exact Nat.mul_lt_mul'' short otherShort

/-- A whole number is moved to its exponent before it is rounded. -/
theorem round_hasSize {bits mantissa : Nat} (short : mantissa < 2 ^ bits) (sign : Sign) :
    HasSize (bits + 54) (2 * (bits + 53 : Nat)) (UnpackedFloat.round .binary64 sign mantissa 0) := by
  simp only [UnpackedFloat.round, decreaseExponent, targetExponent_binary64, totalExponent]
  generalize moved : (0 - max ((mantissa.log2 : Int) + 1 + 0 - 53) (-1074)).toNat = count
  have shifted : mantissa <<< count < 2 ^ (bits + 53) := by
    rw [Nat.shiftLeft_eq, Nat.pow_add]
    exact Nat.mul_lt_mul_of_lt_of_le short (Nat.pow_le_pow_right (by omega) (by omega))
      (Nat.two_pow_pos 53)
  have rounded := roundWithAccuracy_hasSize shifted
    (show (0 : Int) - count ≤ 0 by omega) (Int.le_refl 0) sign .exact
  rwa [Int.zero_add] at rounded

theorem ofNat_hasSize {bits value : Nat} (short : value < 2 ^ bits) :
    HasSize (bits + 54) (2 * (bits + 53 : Nat)) (UnpackedFloat.ofNat .binary64 value) := by
  simp only [UnpackedFloat.ofNat, UnpackedFloat.ofInt, UnpackedFloat.normalize]
  split
  · rename_i negative
    exact absurd (Int.compare_eq_lt.mp negative) (by omega)
  · exact .zero _
  · exact round_hasSize short .positive

theorem ofScientific_hasSize {bits value : Nat} (short : value < 2 ^ bits) :
    HasSize (bits + 55) (2 * (bits + 54 : Nat)) (UnpackedFloat.ofScientific .binary64 value 0) := by
  unfold UnpackedFloat.ofScientific
  split
  · exact .zero _
  · have noUnderflow : ¬ (0 : Int) < -(2 ^ Format.binary64.exponentBits + (value.log2 : Int)) := by
      change ¬ (0 : Int) < -(2048 + (value.log2 : Int))
      omega
    have shifted : value <<< 53 < 2 ^ (bits + 53) := by
      rw [Nat.shiftLeft_eq, Nat.pow_add]
      exact Nat.mul_lt_mul_of_pos_right short (Nat.two_pow_pos 53)
    rw [if_neg (by decide), if_neg noUnderflow, if_pos (by decide)]
    have wide (positive) :
        HasSize (bits + 53) 0 (.finite .positive (value <<< 53) (-53) positive) :=
      .finite .positive positive shifted (by decide)
    have one (positive) : HasSize 1 0 (.finite .positive (10 ^ (0 : Int).toNat) 0 positive) :=
      .finite .positive positive (by decide) (by decide)
    have product (first second) := mul_hasSize (wide first) (one second) (by decide)
    simp only [Int.zero_add] at product
    exact product _ _

/-! ## Packing -/

theorem unpack_pack (number : UnpackedFloat) : (Float.Model.pack number).unpack =
    UnpackedFloat.unpack .binary64 (UnpackedFloat.pack .binary64 number) :=
  rfl

/-- What bits stand for that stand neither for infinity nor for what is no number. -/
theorem unpack_hasSize {bound : Int} {bits : BitVec Format.binary64.numBits}
    (finite : (unpackExponent bits).toNat < 2047)
    (low : ((unpackExponent bits).toNat : Int) ≤ bound + 1075) (nonneg : 0 ≤ bound) :
    HasSize 53 bound (UnpackedFloat.unpack .binary64 bits) := by
  have other : unpackExponent bits ≠ -BitVec.ofNat Format.binary64.exponentBits 1 := by
    intro greatest
    rw [greatest] at finite
    exact absurd finite (by decide)
  simp only [UnpackedFloat.unpack, if_neg other]
  split
  · rename_i least
    split
    · exact .zero _
    · have short : (unpackMantissa bits).toNat < 2 ^ 52 := BitVec.isLt _
      refine .finite _ _ (by omega) ?_
      rw [least]
      change (0 : Int) - (1023 + 52) + 1 ≤ bound
      omega
  · refine .finite _ _ (BitVec.isLt _) ?_
    change ((unpackExponent bits).toNat : Int) - (1023 + 52) ≤ bound
    omega

/-- What is packed has the same exponent again, unless it was below the least one. -/
theorem unpack_pack_hasSize {bits : Nat} {bound : Int} {number : UnpackedFloat}
    (sized : HasSize bits bound number) (nonneg : 0 ≤ bound) (greatest : bound ≤ 971) :
    HasSize 53 bound (Float.Model.pack number).unpack := by
  rw [unpack_pack]
  cases sized with
  | zero sign => cases sign <;> exact .zero _
  | @finite sign mantissa exponent positive short low =>
    have below : ¬ 2 ^ Format.binary64.exponentBits ≤ (exponent + Format.binary64.exponentBias +
        Format.binary64.mantissaBitsWithoutImplicit).toNat + 1 := by
      change ¬ 2048 ≤ (exponent + 1023 + 52).toNat + 1
      omega
    simp only [UnpackedFloat.pack, if_neg below]
    split
    · have kept : (BitVec.ofNat 11 (exponent + 1023 + 52).toNat).toNat =
          (exponent + 1023 + 52).toNat := by
        rw [BitVec.toNat_ofNat]
        omega
      refine unpack_hasSize ?_ ?_ nonneg <;> rw [unpackExponent_packComponents]
      · change (BitVec.ofNat 11 (exponent + 1023 + 52).toNat).toNat < 2047
        omega
      · change ((BitVec.ofNat 11 (exponent + 1023 + 52).toNat).toNat : Int) ≤ _
        omega
    · refine unpack_hasSize ?_ ?_ nonneg <;> rw [unpackExponent_packComponents]
      · decide
      · change (0 : Int) ≤ _
        omega

/-! ## Whole numbers -/

theorem isFinite_of_hasSize {bits : Nat} {bound : Int} {number : Float}
    (sized : HasSize bits bound number.toModel.unpack) : number.isFinite = true := by
  show number.toModel.unpack.isFinite = true
  generalize number.toModel.unpack = unpacked at sized
  cases sized <;> rfl

theorem unpack_one_hasSize : HasSize 53 0 (Float.ofBits 4607182418800017408).toModel.unpack := by
  have isOne : (Float.ofBits 4607182418800017408).toModel.unpack =
    .finite .positive (2 ^ 52) (-52) (by decide) := by rfl
  rw [isOne]
  exact .finite .positive _ (by decide) (by decide)

/-- A natural number of 64 bits as a floating-point number. -/
theorem unpack_ofNat_hasSize {value : Nat} (short : value < 2 ^ 64) :
    HasSize 53 500 (Float.ofNat value).toModel.unpack := by
  show HasSize 53 500 (Float.ofScientific value false 0).toModel.unpack
  unfold Float.ofScientific
  split
  · have wide := unpack_pack_hasSize (ofNat_hasSize (UInt64.toNat_lt value.toUInt64))
      (by norm_num) (by norm_num)
    have product : HasSize _ 500 _ :=
      (mul_hasSize wide unpack_one_hasSize (by norm_num)).mono (by norm_num)
    exact unpack_pack_hasSize product (by norm_num) (by norm_num)
  · have product : HasSize _ 500 _ := (ofScientific_hasSize short).mono (by norm_num)
    exact unpack_pack_hasSize product (by norm_num) (by norm_num)

theorem isFinite_ofInt {value : Int} (fits : Json.fitsInt64 value = true) :
    (Float.ofInt value).isFinite = true := by
  simp only [Json.fitsInt64, Bool.and_eq_true, decide_eq_true_eq] at fits
  have sized : HasSize 53 500 (Float.ofInt value).toModel.unpack := by
    cases value with
    | ofNat value =>
      rw [Int.ofNat_eq_natCast] at fits
      exact unpack_ofNat_hasSize (by omega)
    | negSucc value =>
      have opposite := unpack_ofNat_hasSize (show value.succ < 2 ^ 64 by omega)
      exact unpack_pack_hasSize opposite.neg (by omega) (by omega)
  exact isFinite_of_hasSize sized

end GraphQL

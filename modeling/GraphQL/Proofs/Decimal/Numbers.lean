import GraphQL.Decimal.Reading
import GraphQL.Proofs.Decimal.Packing
import GraphQL.Proofs.Decimal.Positional
import Mathlib

/-!
# Decimals are read as numbers

Whatever digits a decimal has, it is read as a finite number or as one of the two infinities.
Rounding gives a number, packing keeps it one, and a product or quotient with a finite number other
than zero is one.
-/

namespace GraphQL

open Float.Model UnpackedFloat

/-- Finite, or infinite with a sign. -/
def IsNumber (number : UnpackedFloat) : Prop :=
  number ≠ .notANumber

/-- Finite, and not zero. -/
def IsNonzero (number : UnpackedFloat) : Prop :=
  ∃ sign mantissa exponent positive, number = .finite sign mantissa exponent positive

theorem roundWithAccuracy_isNumber (spec : Format) (sign : Sign) (mantissa : Nat) (exponent : Int)
    (accuracy : Accuracy) : IsNumber (roundWithAccuracy spec sign mantissa exponent accuracy) := by
  simp only [roundWithAccuracy, IsNumber]
  split <;> simp

theorem round_isNumber (spec : Format) (sign : Sign) (mantissa : Nat) (exponent : Int) :
    IsNumber (UnpackedFloat.round spec sign mantissa exponent) :=
  roundWithAccuracy_isNumber spec sign _ _ _

theorem ofNat_isNumber (spec : Format) (value : Nat) :
    IsNumber (UnpackedFloat.ofNat spec value) := by
  simp only [UnpackedFloat.ofNat, UnpackedFloat.ofInt, UnpackedFloat.normalize]
  split
  · exact round_isNumber _ _ _ _
  · simp [IsNumber]
  · exact round_isNumber _ _ _ _

theorem mul_isNumber {spec : Format} {number other : UnpackedFloat} (isNumber : IsNumber number)
    (nonzero : IsNonzero other) : IsNumber (UnpackedFloat.mul spec number other) := by
  rcases nonzero with ⟨sign, mantissa, exponent, positive, rfl⟩
  cases number with
  | notANumber => exact absurd rfl isNumber
  | finite => exact roundWithAccuracy_isNumber _ _ _ _ _
  | _ => simp [UnpackedFloat.mul, IsNumber]

theorem div_isNumber {spec : Format} {number other : UnpackedFloat} (isNumber : IsNumber number)
    (nonzero : IsNonzero other) : IsNumber (UnpackedFloat.div spec number other) := by
  rcases nonzero with ⟨sign, mantissa, exponent, positive, rfl⟩
  cases number with
  | notANumber => exact absurd rfl isNumber
  | finite => exact roundWithAccuracy_isNumber _ _ _ _ _
  | _ => simp [UnpackedFloat.div, IsNumber]

theorem ofScientific_isNumber (spec : Format) (significand : Nat) (exponent : Int) :
    IsNumber (UnpackedFloat.ofScientific spec significand exponent) := by
  unfold UnpackedFloat.ofScientific
  split
  · simp [IsNumber]
  · split
    · simp [IsNumber]
    · split
      · simp [IsNumber]
      · split
        · exact mul_isNumber (by simp [IsNumber]) ⟨_, _, _, _, rfl⟩
        · exact div_isNumber (by simp [IsNumber]) ⟨_, _, _, _, rfl⟩

/-! ## Packing -/

/-- Bits stand for a number if the exponent is not the greatest one or the mantissa is zero. -/
theorem unpack_isNumber {bits : BitVec Format.binary64.numBits}
    (number : unpackExponent bits ≠ -1#_ ∨ unpackMantissa bits = 0#_) :
    IsNumber (UnpackedFloat.unpack .binary64 bits) := by
  simp only [UnpackedFloat.unpack, IsNumber]
  split
  · rename_i greatest
    rw [if_pos (number.resolve_left (absurd greatest))]
    simp
  · split
    · split <;> simp
    · simp

/-- Packing keeps a number a number. -/
theorem unpack_pack_isNumber {number : UnpackedFloat} (isNumber : IsNumber number) :
    IsNumber (Float.Model.pack number).unpack := by
  show IsNumber (UnpackedFloat.unpack .binary64 (UnpackedFloat.pack .binary64 number))
  have infinite (sign : Sign) :
      IsNumber (UnpackedFloat.unpack .binary64 (packedInfinity .binary64 sign)) :=
    unpack_isNumber (.inr (unpackMantissa_packComponents))
  cases number with
  | notANumber => exact absurd rfl isNumber
  | infinity sign => exact infinite sign
  | zero sign => exact unpack_isNumber (.inr (unpackMantissa_packComponents))
  | finite sign mantissa exponent positive =>
      simp only [UnpackedFloat.pack]
      split
      · exact infinite sign
      · rename_i below
        split
        · refine unpack_isNumber (.inl ?_)
          rw [unpackExponent_packComponents]
          intro greatest
          have same := congrArg BitVec.toNat greatest
          rw [BitVec.toNat_ofNat] at same
          change _ % 2048 = 2047 at same
          change ¬ 2048 ≤ _ at below
          omega
        · refine unpack_isNumber (.inl ?_)
          rw [unpackExponent_packComponents]
          decide

/-! ## Numbers that are read -/

theorem isNaN_eq_false_iff {number : Float} :
    number.isNaN = false ↔ IsNumber number.toModel.unpack := by
  show number.toModel.unpack.isNaN = false ↔ _
  cases number.toModel.unpack <;> simp [UnpackedFloat.isNaN, IsNumber]

theorem evaluation : (Float.exactlyRepresentablePowersOfTen.all fun power =>
    power.toModel.unpack matches .finite ..) = true := by
  decide +kernel

/-- The powers of ten that are read off a table are finite and not zero. -/
theorem isNonzero_of_mem_powers {power : Float}
    (member : power ∈ Float.exactlyRepresentablePowersOfTen) :
    IsNonzero power.toModel.unpack := by
  have isFinite := Array.all_eq_true_iff_forall_mem.mp evaluation power member
  cases unpacked : power.toModel.unpack with
  | finite sign mantissa exponent positive => exact ⟨_, _, _, _, rfl⟩
  | _ =>
      rw [unpacked] at isFinite
      cases isFinite

theorem isNaN_ofScientific (significand : Nat) (negative : Bool) (exponent : Nat) :
    (Float.ofScientific significand negative exponent).isNaN = false := by
  rw [isNaN_eq_false_iff]
  unfold Float.ofScientific
  split
  · have whole : IsNumber significand.toUInt64.toFloat.toModel.unpack :=
      unpack_pack_isNumber (ofNat_isNumber _ _)
    split
    · exact unpack_pack_isNumber
        (div_isNumber whole (isNonzero_of_mem_powers (Array.getElem_mem _)))
    · exact unpack_pack_isNumber
        (mul_isNumber whole (isNonzero_of_mem_powers (Array.getElem_mem _)))
  · exact unpack_pack_isNumber (ofScientific_isNumber _ _ _)

theorem isNaN_neg {number : Float} (isNumber : number.isNaN = false) : (-number).isNaN = false := by
  rw [isNaN_eq_false_iff] at isNumber ⊢
  refine unpack_pack_isNumber ?_
  cases unpacked : number.toModel.unpack with
  | notANumber => exact absurd unpacked isNumber
  | _ => simp [UnpackedFloat.neg, IsNumber]

namespace Decimal

theorem isNaN_nearestFloat (significand : Nat) (exponent : Int) :
    (nearestFloat significand exponent).isNaN = false := by
  unfold nearestFloat
  dsimp only
  split
  · decide +kernel
  · split
    · decide +kernel
    · split
      · decide +kernel
      · split
        · exact isNaN_ofScientific _ _ _
        · exact isNaN_ofScientific _ _ _

/-- Every decimal is read as a number. -/
theorem isNaN_readNearest (text : String) : (readNearest text).isNaN = false := by
  unfold readNearest Written.toFloat
  dsimp only
  split
  · exact isNaN_neg (isNaN_nearestFloat _ _)
  · exact isNaN_nearestFloat _ _

/-- The bits of an infinite number apart from its sign. -/
theorem toNat_of_infinite {bits : BitVec Format.binary64.numBits}
    (infinite : (UnpackedFloat.unpack .binary64 bits).isFinite = false)
    (isNumber : IsNumber (UnpackedFloat.unpack .binary64 bits)) :
    bits.toNat / 2 ^ 52 % 2 ^ 11 = 2 ^ 11 - 1 ∧ bits.toNat % 2 ^ 52 = 0 := by
  rw [← toNat_unpackExponent, ← toNat_unpackMantissa]
  simp only [UnpackedFloat.unpack, IsNumber] at infinite isNumber
  split at infinite
  · rename_i greatest
    rw [if_pos greatest] at isNumber
    split at infinite
    · rename_i none
      rw [greatest, none]
      exact ⟨rfl, rfl⟩
    · rename_i some
      rw [if_neg some] at isNumber
      exact absurd rfl isNumber
  · split at infinite
    · split at infinite <;> cases infinite
    · cases infinite

/-- A number is finite or one of the two infinities. -/
theorem isFinite_or_infinite {number : Float} (isNumber : number.isNaN = false) :
    number.isFinite = true ∨ number = infinity ∨ number = -infinity := by
  by_cases finite : number.isFinite = true
  · exact .inl finite
  · refine .inr ?_
    have bits : number.toBits.toNat / 2 ^ 52 % 2 ^ 11 = 2 ^ 11 - 1 ∧
        number.toBits.toNat % 2 ^ 52 = 0 :=
      toNat_of_infinite (Bool.eq_false_of_not_eq_true finite) (isNaN_eq_false_iff.mp isNumber)
    have bound := number.toBits.toNat_lt
    have above : infinity.toBits.toNat = 2047 * 2 ^ 52 := by decide +kernel
    have below : (-infinity).toBits.toNat = 2 ^ 63 + 2047 * 2 ^ 52 := by decide +kernel
    have two : number.toBits.toNat = infinity.toBits.toNat ∨
        number.toBits.toNat = (-infinity).toBits.toNat := by
      omega
    exact two.imp (fun same => eq_of_toBits (UInt64.toNat_inj.mp same))
      fun same => eq_of_toBits (UInt64.toNat_inj.mp same)

end Decimal

end GraphQL

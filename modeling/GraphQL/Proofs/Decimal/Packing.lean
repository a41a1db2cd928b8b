import GraphQL.Proofs.Decimal.Rounding

/-!
# Bits of a number

The bits of a finite number are its sign, its exponent and its mantissa, so a number of the double
format is the same after it was packed into bits, and the bits are the same after they were taken
apart.
-/

namespace GraphQL

open Float.Model UnpackedFloat

theorem toNat_unpackExponent (bits : BitVec Format.binary64.numBits) :
    (unpackExponent bits).toNat = bits.toNat / 2 ^ 52 % 2 ^ 11 := by
  simp [unpackExponent, BitVec.extractLsb_toNat, Nat.shiftRight_eq_div_pow]

theorem toNat_unpackMantissa (bits : BitVec Format.binary64.numBits) :
    (unpackMantissa bits).toNat = bits.toNat % 2 ^ 52 := by
  simp [unpackMantissa, BitVec.extractLsb_toNat]

theorem toNat_unpackSign (bits : BitVec Format.binary64.numBits) :
    (unpackSign bits).toNat = bits.toNat / 2 ^ 63 % 2 := by
  simp [unpackSign, BitVec.extractLsb_toNat, Nat.shiftRight_eq_div_pow]

/-- The first bit of a mantissa that has one is left out of the bits. -/
theorem toNat_one_append (mantissa : BitVec 52) :
    (1#1 ++ mantissa).toNat = mantissa.toNat + 2 ^ 52 := by
  rw [BitVec.toNat_append, ← Nat.shiftLeft_add_eq_or_of_lt mantissa.isLt]
  exact Nat.add_comm _ _

/-! ## Taking bits apart -/

def floatSign (x : Float) : Sign :=
  if floatIsNegative x then .negative else .positive

theorem ofBitVec_unpackSign (x : Float) :
    Sign.ofBitVec (@unpackSign .binary64 x.toModel.toBits.toBitVec) = floatSign x := by
  have bit := toNat_unpackSign x.toModel.toBits.toBitVec
  have bound := x.toBits.toNat_lt
  have first : floatIsNegative x = decide (x.toBits.toNat / 2 ^ 63 % 2 = 1) := by
    rw [floatIsNegative, Nat.pow_eq, Nat.mod_eq_of_lt (by omega)]
    rfl
  change (unpackSign _).toNat = x.toBits.toNat / 2 ^ 63 % 2 at bit
  rw [Sign.ofBitVec, floatSign, first, ← bit]
  rcases BitVec.eq_zero_or_eq_one (@unpackSign .binary64 x.toModel.toBits.toBitVec) with
    none | one
  · rw [none]
    rfl
  · rw [one]
    rfl

section

variable {bits : BitVec Format.binary64.numBits}

/-- Without an exponent the mantissa is taken as it is. -/
theorem unpack_of_least (least : unpackExponent bits = 0#_) :
    UnpackedFloat.unpack .binary64 bits =
      ofParts (Sign.ofBitVec (unpackSign bits)) (unpackMantissa bits).toNat (-1074) := by
  have other : unpackExponent bits ≠ -1#_ := by
    rw [least]
    decide
  simp only [UnpackedFloat.unpack, if_neg other, if_pos least, ofParts]
  split
  · rename_i none
    have isZero : (unpackMantissa bits).toNat = 0 := congrArg BitVec.toNat none
    rw [dif_pos isZero]
  · rename_i filled
    have notZero : (unpackMantissa bits).toNat ≠ 0 := fun none =>
      filled (BitVec.eq_of_toNat_eq none)
    rw [dif_neg notZero, least]
    rfl

/-- With an exponent the mantissa has one bit more. -/
theorem unpack_of_normal (normal : unpackExponent bits ≠ 0#_) (below : unpackExponent bits ≠ -1#_) :
    UnpackedFloat.unpack .binary64 bits =
      ofParts (Sign.ofBitVec (unpackSign bits)) ((unpackMantissa bits).toNat + 2 ^ 52)
        ((unpackExponent bits).toNat - 1075) := by
  simp only [UnpackedFloat.unpack, if_neg below, if_neg normal, ofParts]
  rw [dif_neg (by omega)]
  simp only [toNat_one_append]
  rfl

theorem unpackExponent_ne_of_isFinite
    (finite : (UnpackedFloat.unpack .binary64 bits).isFinite = true) :
    unpackExponent bits ≠ -1#_ := by
  intro greatest
  simp only [UnpackedFloat.unpack, if_pos greatest] at finite
  split at finite <;> cases finite

end

/-- A finite number is made of the parts of its bits. -/
theorem unpack_of_isFinite {x : Float} (finite : x.isFinite = true) :
    x.toModel.unpack =
        ofParts (floatSign x) (Binary.ofFloat x).mantissa (Binary.ofFloat x).exponent ∧
      (Binary.ofFloat x).exponent ≤ 971 := by
  have exponent : (@unpackExponent .binary64 x.toModel.toBits.toBitVec).toNat =
    x.toBits.toNat / 2 ^ 52 % 2 ^ 11 := toNat_unpackExponent _
  have mantissa : (@unpackMantissa .binary64 x.toModel.toBits.toBitVec).toNat =
    x.toBits.toNat % 2 ^ 52 := toNat_unpackMantissa _
  have below : @unpackExponent .binary64 x.toModel.toBits.toBitVec ≠ -1#_ :=
    unpackExponent_ne_of_isFinite finite
  show UnpackedFloat.unpack .binary64 x.toModel.toBits.toBitVec = _ ∧ _
  rw [← ofBitVec_unpackSign, Binary.ofFloat]
  simp only [Nat.pow_eq, ← exponent, ← mantissa]
  split
  · rename_i isZero
    exact ⟨unpack_of_least (BitVec.eq_of_toNat_eq isZero), by simp⟩
  · rename_i notZero
    refine ⟨unpack_of_normal (fun least => notZero (congrArg BitVec.toNat least)) below, ?_⟩
    have short := (@unpackExponent .binary64 x.toModel.toBits.toBitVec).isLt
    have notGreatest : (@unpackExponent .binary64 x.toModel.toBits.toBitVec).toNat ≠ 2047 :=
      fun greatest => below (BitVec.eq_of_toNat_eq greatest)
    change _ < 2048 at short
    simp only
    omega

/-! ## Packing -/

section

variable {mantissa : Nat} {exponent : Int} (filled : 0 < mantissa) (sign : Sign)

theorem unpack_pack_of_normal (wide : 2 ^ 52 ≤ mantissa) (short : mantissa < 2 ^ 53)
    (bounded : -1074 ≤ exponent) (high : exponent ≤ 971) :
    (Float.Model.pack (.finite sign mantissa exponent filled)).unpack =
      .finite sign mantissa exponent filled := by
  have below : ¬2 ^ Format.binary64.exponentBits ≤ (exponent + Format.binary64.exponentBias +
      Format.binary64.mantissaBitsWithoutImplicit).toNat + 1 := by
    change ¬2048 ≤ (exponent + 1023 + 52).toNat + 1
    omega
  have long : mantissa.log2 + 1 = Format.binary64.mantissaBits := by
    have least := (Nat.le_log2 filled.ne').mpr wide
    have most := (Nat.log2_lt filled.ne').mpr short
    change mantissa.log2 + 1 = 53
    omega
  have biased : (BitVec.ofNat 11 (exponent + 1023 + 52).toNat).toNat =
      (exponent + 1023 + 52).toNat := by
    rw [BitVec.toNat_ofNat]
    omega
  have kept : (BitVec.ofNat 52 mantissa).toNat + 2 ^ 52 = mantissa := by
    rw [BitVec.toNat_ofNat]
    omega
  rw [unpack_pack]
  simp only [UnpackedFloat.pack, if_neg below, if_pos long]
  rw [unpack_of_normal]
  · simp only [unpackExponent_packComponents, unpackMantissa_packComponents,
      unpackSign_packComponents, Sign.ofBitVec_toBitVec]
    change ofParts sign ((BitVec.ofNat 52 mantissa).toNat + 2 ^ 52)
      ((BitVec.ofNat 11 (exponent + 1023 + 52).toNat).toNat - 1075) = _
    rw [kept, biased, show ((exponent + 1023 + 52).toNat : Int) - 1075 = exponent by omega, ofParts,
      dif_neg filled.ne']
  · rw [unpackExponent_packComponents]
    intro least
    have isZero := congrArg BitVec.toNat least
    change (BitVec.ofNat 11 (exponent + 1023 + 52).toNat).toNat = 0 at isZero
    omega
  · rw [unpackExponent_packComponents]
    intro greatest
    have isGreatest := congrArg BitVec.toNat greatest
    change (BitVec.ofNat 11 (exponent + 1023 + 52).toNat).toNat = 2047 at isGreatest
    omega

theorem unpack_pack_of_subnormal (less : mantissa < 2 ^ 52) :
    (Float.Model.pack (.finite sign mantissa (-1074) filled)).unpack =
      .finite sign mantissa (-1074) filled := by
  have short : mantissa.log2 + 1 ≠ Format.binary64.mantissaBits := by
    have most := (Nat.log2_lt filled.ne').mpr less
    change mantissa.log2 + 1 ≠ 53
    omega
  rw [unpack_pack]
  simp only [UnpackedFloat.pack]
  rw [if_neg (by decide), if_neg short, unpack_of_least unpackExponent_packComponents,
    unpackMantissa_packComponents, unpackSign_packComponents, Sign.ofBitVec_toBitVec,
    BitVec.toNat_ofNat, Nat.mod_eq_of_lt less, ofParts, dif_neg filled.ne']

end

/-- A number of the double format is the same after it was packed. -/
theorem unpack_pack_ofParts {mantissa : Nat} {exponent : Int}
    (isDouble : (double mantissa exponent).IsDouble) (high : exponent ≤ 971) (sign : Sign) :
    (Float.Model.pack (ofParts sign mantissa exponent)).unpack =
      ofParts sign mantissa exponent := by
  unfold ofParts
  split
  · exact unpack_packedZero
  · rename_i none
    by_cases wide : 2 ^ 52 ≤ mantissa
    · exact unpack_pack_of_normal _ sign wide isDouble.short isDouble.bounded high
    · have least : exponent = -1074 := isDouble.normal.resolve_left wide
      subst least
      exact unpack_pack_of_subnormal _ sign (Nat.not_le.mp wide)

end GraphQL

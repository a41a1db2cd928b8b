import GraphQL.Decimal.Reading
import GraphQL.Json.Printer
import GraphQL.Proofs.Decimal.Packing
import GraphQL.Proofs.Decimal.Positional

/-!
# Decimals are read as the nearest number

A decimal in the interval of a finite number is read as this number: either a product or quotient of
two exact numbers is rounded once, or one of whole numbers is. The shortest decimal of a number is in
its interval, so the texts of a finite number are read as the number.
-/

namespace GraphQL

open Float.Model UnpackedFloat

/-! ## Exact numbers -/

/-- A whole number of 53 bits is written with all of them. -/
theorem unpack_toFloat {value : Nat} (positive : 0 < value) (short : value < 2 ^ 53) :
    ∃ mantissa exponent filled,
      value.toUInt64.toFloat.toModel.unpack = .finite .positive mantissa exponent filled ∧
        2 ^ 52 ≤ mantissa ∧ (mantissa : ℚ) * 2 ^ exponent = value := by
  have long : value.log2 < 53 := (Nat.log2_lt positive.ne').mpr short
  obtain ⟨count, isCount⟩ : ∃ count, count + value.log2 = 52 := ⟨52 - value.log2, by omega⟩
  have wide : 2 ^ 52 ≤ value <<< count := by
    rw [Nat.shiftLeft_eq, ← isCount, Nat.add_comm, Nat.pow_add]
    exact Nat.mul_le_mul_right _ (Nat.log2_self_le positive.ne')
  have less : value <<< count < 2 ^ 53 := by
    rw [Nat.shiftLeft_eq, show 53 = (value.log2 + 1) + count by omega, Nat.pow_add]
    exact Nat.mul_lt_mul_of_pos_right Nat.lt_log2_self (Nat.two_pow_pos count)
  have isDouble : (double (value <<< count) (-count)).IsDouble :=
    isDouble_double less (by omega) (.inl wide)
  have compared : compare (value : Int) 0 = .gt := Int.compare_eq_gt.mpr (by omega)
  have rounds : UnpackedFloat.ofNat .binary64 value =
      roundWithAccuracy .binary64 .positive (value <<< count) (-count) .exact := by
    simp only [UnpackedFloat.ofNat, UnpackedFloat.ofInt, UnpackedFloat.normalize, compared,
      UnpackedFloat.round, decreaseExponent, targetExponent_binary64, totalExponent,
      Int.toNat_natCast]
    rw [show (0 - max ((value.log2 : Int) + 1 + 0 - 53) (-1074)).toNat = count by omega,
      Int.zero_sub]
  have exact : Approximates (value <<< count) .exact ((value <<< count : ℕ) : ℚ) := rfl
  have rounded : roundWithAccuracy .binary64 .positive (value <<< count) (-count) .exact =
      ofParts .positive (value <<< count) (-count) :=
    roundWithAccuracy_of_covers exact (.inl wide) .positive isDouble
      (double (value <<< count) (-count)).covers_value
  have small : value.toUInt64.toNat = value := by
    rw [Nat.toUInt64, UInt64.toNat_ofNat', Nat.mod_eq_of_lt (by omega)]
  refine ⟨value <<< count, -count, by omega, ?_, wide, ?_⟩
  · show (Float.Model.pack (UnpackedFloat.ofNat .binary64 value.toUInt64.toNat)).unpack = _
    rw [small, rounds, rounded, unpack_pack_ofParts isDouble (by omega), ofParts,
      dif_neg (by omega)]
  · rw [Nat.shiftLeft_eq, zpow_neg, zpow_natCast]
    push_cast
    field_simp

/-- A power of ten that has a mantissa of 53 bits. -/
def isPowerOfTen (index : Nat) (power : Float) : Bool :=
  match power.toModel.unpack with
  | .finite .positive mantissa exponent _ =>
      decide (mantissa * 2 ^ exponent.toNat = 10 ^ index * 2 ^ (-exponent).toNat)
  | _ => false

theorem powersOfTen_evaluation : Float.exactlyRepresentablePowersOfTen.toList.zipIdx.all
    (fun entry => isPowerOfTen entry.2 entry.1) = true := by
  decide +kernel

/-- The powers of ten that are read off a table are exact. -/
theorem unpack_powerOfTen {index : Nat} {power : Float}
    (listed : Float.exactlyRepresentablePowersOfTen[index]? = some power) :
    ∃ mantissa exponent filled,
      power.toModel.unpack = .finite .positive mantissa exponent filled ∧
        (mantissa : ℚ) * 2 ^ exponent = 10 ^ index := by
  rw [← Array.getElem?_toList] at listed
  have isPower := List.all_eq_true.mp powersOfTen_evaluation (power, index)
    (List.mem_zipIdx_iff_getElem?.mpr listed)
  simp only [isPowerOfTen] at isPower
  split at isPower
  · rename_i mantissa exponent filled unpacked
    have same := of_decide_eq_true isPower
    refine ⟨mantissa, exponent, filled, unpacked, ?_⟩
    have casted : (mantissa : ℚ) * 2 ^ exponent.toNat = 10 ^ index * 2 ^ (-exponent).toNat := by
      exact_mod_cast same
    have split : (2 : ℚ) ^ exponent * 2 ^ (-exponent).toNat = 2 ^ exponent.toNat := by
      rw [← zpow_natCast, ← zpow_natCast, ← zpow_add₀ two_ne_zero]
      congr 1
      omega
    rw [← split, ← mul_assoc] at casted
    exact mul_right_cancel₀ (by positivity) casted
  · cases isPower

/-! ## Decimals -/

section

variable {significand mantissa : Nat} {place : Int} (positive : 0 < significand)
  (isDouble : (double mantissa place).IsDouble)

include positive isDouble

/-- A significand and a power of ten that are both exact are rounded once. -/
theorem unpack_ofScientific_of_short (high : place ≤ 971) {exponent : Nat}
    (short : significand < 2 ^ 53) (low : exponent ≤ 22) {negative : Bool}
    (covers : (double mantissa place).Covers
      (significand * 10 ^ (if negative then -(exponent : Int) else exponent))) :
    (Float.ofScientific significand negative exponent).toModel.unpack =
      ofParts .positive mantissa place := by
  obtain ⟨first, firstPlace, firstFilled, firstUnpacked, wide, firstValue⟩ :=
    unpack_toFloat positive short
  have inside : exponent < Float.exactlyRepresentablePowersOfTen.size := Nat.lt_succ_of_le low
  obtain ⟨second, secondPlace, secondFilled, secondUnpacked, secondValue⟩ :=
    unpack_powerOfTen (Array.getElem?_eq_getElem inside)
  have power : (0 : ℚ) < 2 ^ secondPlace := by positivity
  have filled : (second : ℚ) ≠ 0 := Nat.cast_ne_zero.mpr secondFilled.ne'
  unfold Float.ofScientific
  rw [dif_pos ⟨short, low⟩]
  cases negative with
  | true =>
      show (Float.Model.pack (UnpackedFloat.div .binary64 significand.toUInt64.toFloat.toModel.unpack
        (Float.exactlyRepresentablePowersOfTen[exponent]).toModel.unpack)).unpack = _
      rw [firstUnpacked, secondUnpacked, div_of_covers firstPlace secondPlace .positive .positive
        firstFilled secondFilled isDouble, ← unpack_pack_ofParts isDouble high .positive]
      · rfl
      · convert covers using 1
        rw [if_pos rfl, ← firstValue, zpow_neg, zpow_natCast, ← secondValue, zpow_sub₀ two_ne_zero]
        field_simp
  | false =>
      show (Float.Model.pack (UnpackedFloat.mul .binary64 significand.toUInt64.toFloat.toModel.unpack
        (Float.exactlyRepresentablePowersOfTen[exponent]).toModel.unpack)).unpack = _
      rw [firstUnpacked, secondUnpacked, mul_of_covers firstPlace secondPlace .positive .positive
        firstFilled secondFilled isDouble (wide.trans (Nat.le_mul_of_pos_right _ secondFilled)),
        ← unpack_pack_ofParts isDouble high .positive]
      · rfl
      · convert covers using 1
        rw [if_neg Bool.false_ne_true, ← firstValue, zpow_natCast, ← secondValue,
          zpow_add₀ two_ne_zero]
        ring

/-- Other decimals are rounded from a product or a quotient of whole numbers. -/
theorem ofScientific_of_covers {exponent : Int} (low : exponent ≤ 2048)
    (high : -(2048 + (significand.log2 : Int)) ≤ exponent)
    (covers : (double mantissa place).Covers (significand * 10 ^ exponent)) :
    UnpackedFloat.ofScientific .binary64 significand exponent =
      ofParts .positive mantissa place := by
  unfold UnpackedFloat.ofScientific
  rw [dif_neg positive.ne', if_neg (by change ¬2048 < exponent; omega),
    if_neg (by change ¬exponent < -(2048 + (significand.log2 : Int)); omega)]
  split
  · rename_i whole
    have wide : 2 ^ 52 ≤ significand <<< 53 * 10 ^ exponent.toNat := by
      rw [Nat.shiftLeft_eq]
      calc 2 ^ 52 ≤ significand * 2 ^ 53 := by omega
        _ ≤ _ := Nat.le_mul_of_pos_right _ (Nat.pow_pos (by norm_num))
    have power : (10 : ℚ) ^ exponent = 10 ^ exponent.toNat := by
      rw [← zpow_natCast]
      congr 1
      omega
    refine mul_of_covers _ _ _ _ _ _ isDouble wide ?_
    convert covers using 1
    rw [power, Nat.shiftLeft_eq, show Format.binary64.mantissaBits = 53 from rfl]
    push_cast
    norm_num
    ring
  · rename_i negative
    have power : (10 : ℚ) ^ exponent = (10 ^ (-exponent).toNat)⁻¹ := by
      rw [← zpow_natCast, ← zpow_neg]
      congr 1
      omega
    refine div_of_covers _ _ _ _ _ _ isDouble ?_
    convert covers using 1
    rw [power]
    norm_num
    ring

theorem unpack_ofScientific (high : place ≤ 971) {exponent : Nat} {negative : Bool}
    (low : negative = false → exponent ≤ 2048)
    (near : negative = true → exponent ≤ 2048 + significand.log2)
    (covers : (double mantissa place).Covers
      (significand * 10 ^ (if negative then -(exponent : Int) else exponent))) :
    (Float.ofScientific significand negative exponent).toModel.unpack =
      ofParts .positive mantissa place := by
  by_cases exact : significand < 2 ^ 53 ∧ exponent ≤ 22
  · exact unpack_ofScientific_of_short positive isDouble high exact.1 exact.2 covers
  · unfold Float.ofScientific
    rw [dif_neg exact]
    cases negative with
    | true =>
        have bound := near rfl
        have rounded : UnpackedFloat.ofScientific .binary64 significand (-(exponent : Int)) = _ :=
          ofScientific_of_covers positive isDouble (by omega) (by omega) covers
        rw [if_pos rfl, Int.negOfNat_eq, Int.ofNat_eq_natCast]
        show (Float.Model.pack (UnpackedFloat.ofScientific .binary64 significand _)).unpack = _
        rw [rounded, unpack_pack_ofParts isDouble high]
    | false =>
        have bound := low rfl
        have rounded : UnpackedFloat.ofScientific .binary64 significand (exponent : Int) = _ :=
          ofScientific_of_covers positive isDouble (by omega) (by omega) covers
        rw [if_neg Bool.false_ne_true]
        show (Float.Model.pack (UnpackedFloat.ofScientific .binary64 significand _)).unpack = _
        rw [Int.ofNat_eq_natCast, rounded, unpack_pack_ofParts isDouble high]

end

/-! ## The size of a number -/

/-- What is in the interval of a finite number is below a power of ten. -/
theorem Binary.Covers.lt_pow {number : Binary} {decimal : ℚ} (covers : number.Covers decimal)
    (isDouble : number.IsDouble) (high : number.exponent ≤ 971) : decimal < 10 ^ (309 : Int) := by
  have short : (number.mantissa : ℚ) ≤ 2 ^ 53 := by exact_mod_cast isDouble.short.le
  have place : (2 : ℚ) ^ (number.exponent - 2) ≤ 2 ^ (969 : Int) :=
    zpow_le_zpow_right₀ one_le_two (by omega)
  calc decimal ≤ (4 * number.mantissa + 2) * 2 ^ (number.exponent - 2) := covers.le_upper
    _ ≤ (4 * 2 ^ 53 + 2) * 2 ^ (969 : Int) := by gcongr
    _ < 10 ^ (309 : Int) := by
        exact_mod_cast (by decide +kernel : (4 * 2 ^ 53 + 2) * 2 ^ 969 < 10 ^ 309)

/-- What is in the interval of a number other than zero is above a power of ten. -/
theorem Binary.Covers.pow_lt {number : Binary} {decimal : ℚ} (covers : number.Covers decimal)
    (isDouble : number.IsDouble) (filled : 0 < number.mantissa) :
    10 ^ (-330 : Int) < decimal := by
  have count : (2 : ℚ) ≤ 4 * number.mantissa - if number.nearerBelow then 1 else 2 := by
    have casted : (1 : ℚ) ≤ number.mantissa := Nat.one_le_cast.mpr filled
    split <;> linarith
  have bounded := isDouble.bounded
  have place : (2 : ℚ) ^ (-1076 : Int) ≤ 2 ^ (number.exponent - 2) :=
    zpow_le_zpow_right₀ one_le_two (by omega)
  have apart : (2 : ℚ) ^ 1076 < 2 * 10 ^ 330 := by
    exact_mod_cast (by decide +kernel : 2 ^ 1076 < 2 * 10 ^ 330)
  calc (10 : ℚ) ^ (-330 : Int) < 2 * 2 ^ (-1076 : Int) := by
        rw [zpow_neg, zpow_neg, ← div_eq_mul_inv, lt_div_iff₀ (by positivity),
          inv_mul_lt_iff₀ (by positivity), mul_comm]
        exact apart
    _ ≤ number.lower := by
        unfold Binary.lower
        gcongr
    _ ≤ decimal := covers.lower_le

namespace Decimal

/-- The size of a decimal is told by the number of its digits. -/
theorem pow_magnitude (significand : Nat) (exponent : Int) (positive : 0 < significand) :
    (10 : ℚ) ^ (exponent + ((Nat.toDigits 10 significand).length : Int) - 1) ≤
        significand * 10 ^ exponent ∧
      (significand : ℚ) * 10 ^ exponent <
        10 ^ (exponent + ((Nat.toDigits 10 significand).length : Int)) := by
  have least := pow_length_toDigits_le positive
  have most := lt_pow_length_toDigits significand
  have length : 0 < (Nat.toDigits 10 significand).length := Nat.length_toDigits_pos
  generalize (Nat.toDigits 10 significand).length = count at least most length
  have power : (0 : ℚ) < 10 ^ exponent := by positivity
  constructor
  · rw [show exponent + (count : Int) - 1 = ((count - 1 : Nat) : Int) + exponent by omega,
      zpow_add₀ (by norm_num), zpow_natCast]
    exact mul_le_mul_of_nonneg_right (by exact_mod_cast least) power.le
  · rw [add_comm, zpow_add₀ (by norm_num), zpow_natCast]
    exact mul_lt_mul_of_pos_right (by exact_mod_cast most) power

/-- A decimal in the interval of a finite number is read as the number. -/
theorem unpack_nearestFloat {significand mantissa : Nat} {exponent place : Int}
    (isDouble : (double mantissa place).IsDouble) (high : place ≤ 971) (filled : 0 < mantissa)
    (covers : (double mantissa place).Covers (significand * 10 ^ exponent)) :
    (nearestFloat significand exponent).toModel.unpack = ofParts .positive mantissa place := by
  have positive : 0 < significand := by
    have size := covers.pos filled
    by_contra none
    rw [Nat.eq_zero_of_not_pos none] at size
    simp at size
  have size := pow_magnitude significand exponent positive
  have below := (size.1.trans_lt (covers.lt_pow isDouble high))
  have above := (covers.pow_lt isDouble filled).trans size.2
  rw [zpow_lt_zpow_iff_right₀ (by norm_num)] at below above
  have digits : (Nat.toDigits 10 significand).length - 1 ≤ significand.log2 :=
    (Nat.le_log2 positive.ne').mpr
      ((Nat.pow_le_pow_left (by norm_num) _).trans (pow_length_toDigits_le positive))
  unfold nearestFloat
  dsimp only
  rw [if_neg positive.ne', if_neg (by omega), if_neg (by omega)]
  split
  · refine unpack_ofScientific positive isDouble high (by simp) (fun _ => by omega) ?_
    convert covers using 3
    rw [if_pos rfl]
    omega
  · refine unpack_ofScientific positive isDouble high (fun _ => by omega) (by simp) ?_
    convert covers using 3
    rw [if_neg Bool.false_ne_true]
    omega

end Decimal

/-! ## Written numbers -/

/-- Numbers with the same parts are the same. -/
theorem eq_of_unpack {x y : Float} (same : x.toModel.unpack = y.toModel.unpack) : x = y := by
  have bits : x.toModel.toBits.toBitVec = y.toModel.toBits.toBitVec := by
    rw [← UnpackedFloat.pack_unpack_of_valid x.toModel.valid,
      ← UnpackedFloat.pack_unpack_of_valid y.toModel.valid]
    exact congrArg (UnpackedFloat.pack .binary64) same
  exact eq_of_toBits (UInt64.toBitVec_inj.mp bits)

theorem Binary.IsDouble.eq_double {number : Binary} (isDouble : number.IsDouble) :
    number = double number.mantissa number.exponent := by
  have nearer : number.nearerBelow =
      decide (number.mantissa = 2 ^ 52 ∧ -1074 < number.exponent) := by
    rw [Bool.eq_iff_iff, decide_eq_true_iff]
    exact isDouble.nearerBelow_iff
  rw [double, ← nearer]

theorem unpack_neg {x : Float} {mantissa : Nat} {exponent : Int}
    (isDouble : (double mantissa exponent).IsDouble) (high : exponent ≤ 971)
    (unpacked : x.toModel.unpack = ofParts .positive mantissa exponent) :
    (-x).toModel.unpack = ofParts .negative mantissa exponent := by
  have opposite : (ofParts .positive mantissa exponent).neg =
      ofParts .negative mantissa exponent := by
    unfold ofParts
    split <;> rfl
  rw [← unpack_pack_ofParts isDouble high .negative, ← opposite, ← unpacked]
  rfl

namespace Decimal

theorem unpack_zero : (0.0 : Float).toModel.unpack = .zero .positive := by
  rfl

/-- The shortest decimal of the size of a finite number is read as the size. -/
theorem unpack_nearestFloat_of_shortest {x : Float} (finite : x.isFinite = true) {tie : Tie}
    {significand : Nat} {exponent : Int}
    (same : (significand : ℚ) * 10 ^ exponent = (Decimal.ofFloat tie x).value) :
    (nearestFloat significand exponent).toModel.unpack =
      ofParts .positive (Binary.ofFloat x).mantissa (Binary.ofFloat x).exponent := by
  have isDouble := Binary.ofFloat_isDouble x
  have high := (unpack_of_isFinite finite).2
  rcases Nat.eq_zero_or_pos (Binary.ofFloat x).mantissa with none | filled
  · have zero : (significand : ℚ) * 10 ^ exponent = 0 := by
      rw [same]
      simp [Decimal.ofFloat, Binary.shortest, none, Decimal.value]
    have isZero : significand = 0 :=
      Nat.cast_eq_zero.mp ((mul_eq_zero_iff_right (by positivity)).mp zero)
    have read : nearestFloat 0 exponent = 0.0 := by simp [nearestFloat]
    rw [isZero, none, read]
    exact unpack_zero
  · have covers := Binary.shortest_covers isDouble filled tie
    change (Binary.ofFloat x).Covers (Decimal.ofFloat tie x).value at covers
    rw [← same, isDouble.eq_double] at covers
    rw [isDouble.eq_double] at isDouble
    exact unpack_nearestFloat isDouble high filled covers

/-- The absolute value that is written. -/
def Written.size (number : Written) : ℚ :=
  digitsValue 0 (number.whole ++ number.fraction) *
    10 ^ (number.exponentValue - number.fraction.length)

/-- A written number with the sign and the size of a finite number is read as it. -/
theorem Written.toFloat_eq {x : Float} (finite : x.isFinite = true) {tie : Tie} {number : Written}
    (sign : number.negative = floatIsNegative x)
    (same : number.size = (Decimal.ofFloat tie x).value) : number.toFloat = x := by
  have parts := unpack_of_isFinite finite
  have isDouble := Binary.ofFloat_isDouble x
  rw [isDouble.eq_double] at isDouble
  have positive := unpack_nearestFloat_of_shortest finite same
  apply eq_of_unpack
  rw [parts.1, Written.toFloat, sign, floatSign]
  cases floatIsNegative x with
  | true => exact unpack_neg isDouble parts.2 positive
  | false => exact positive

/-! ## Texts -/

theorem Written.splitExponent_of_digits {digits : List Char}
    (plain : ∀ c ∈ digits, c.isDigit = true ∨ c = '.') (rest : List Char) :
    splitExponent (digits ++ rest) =
      (digits ++ (splitExponent rest).1, (splitExponent rest).2) := by
  induction digits with
  | nil => rfl
  | cons c digits ih =>
      rw [List.forall_mem_cons] at plain
      have other : ¬(c = 'e' ∨ c = 'E') := by
        rintro (rfl | rfl) <;> exact absurd plain.1 (by decide)
      rw [List.cons_append]
      simp only [splitExponent, if_neg other]
      rw [ih plain.2]
      rfl

/-- A text is taken apart at its point and at its exponent. -/
theorem Written.ofChars_eq (negative : Bool) {whole point : List Char} (rest : List Char)
    (present : whole ≠ []) (digits : ∀ c ∈ whole, c.isDigit = true)
    (pointed : point = [] ∨ ∃ fraction, point = '.' :: fraction ∧
      ∀ c ∈ fraction, c.isDigit = true)
    (exponential : (splitExponent rest).1 = []) :
    ofChars ((if negative then ['-'] else []) ++ (whole ++ (point ++ rest))) =
      { negative
        whole
        fraction := point.drop 1
        exponentNegative := (splitExponent rest).2.1
        exponent := (splitExponent rest).2.2 } := by
  have plain : ∀ c ∈ whole ++ point, c.isDigit = true ∨ c = '.' := by
    intro c member
    rcases List.mem_append.mp member with inWhole | inPoint
    · exact .inl (digits c inWhole)
    · rcases pointed with rfl | ⟨fraction, rfl, fractionDigits⟩
      · cases inPoint
      · exact (List.mem_cons.mp inPoint).elim .inr fun inFraction =>
          .inl (fractionDigits c inFraction)
  have split := splitExponent_of_digits plain rest
  rw [exponential, List.append_nil, List.append_assoc] at split
  have noPoint : ∀ c ∈ whole, decide (c ≠ '.') = true := by
    intro c member
    rw [decide_eq_true_iff]
    rintro rfl
    exact absurd (digits _ member) (by decide)
  have before : (whole ++ point).takeWhile (· ≠ '.') = whole := by
    rw [List.takeWhile_append_of_pos noPoint]
    rcases pointed with rfl | ⟨fraction, rfl, _⟩ <;> simp
  have after : (whole ++ point).dropWhile (· ≠ '.') = point := by
    rw [List.dropWhile_append_of_pos noPoint]
    rcases pointed with rfl | ⟨fraction, rfl, _⟩ <;> simp
  have unsigned : ∀ others, whole ++ (point ++ rest) ≠ '-' :: others := fun _ =>
    Literal.ne_minus_of_digits present digits
  cases negative with
  | true =>
      simp only [ofChars, if_true, List.singleton_append]
      rw [split]
      simp only [before, after]
  | false =>
      simp only [ofChars, Bool.false_eq_true, if_false, List.nil_append]
      rw [split]
      simp only [before, after]

theorem Written.ofChars_positional (number : Decimal) (negative : Bool) :
    ∃ written : Written,
      ofChars ((if negative then ['-'] else []) ++ number.positional.toList) = written ∧
        written.negative = negative ∧ written.size = number.value := by
  rcases number.exists_parts with
    ⟨whole, fraction, positional, ⟨present, _⟩, digits, fractionDigits, spelled⟩
  have parts := ofChars_eq negative [] present digits
    (.inr ⟨fraction, rfl, fractionDigits⟩) rfl
  rw [List.append_nil] at parts
  rw [positional]
  refine ⟨_, parts, rfl, ?_⟩
  change (Nat.ofDigitChars 10 (whole ++ fraction) 0 : ℚ) * 10 ^ ((0 : Int) - fraction.length) = _
  rw [spelled, zero_sub, zpow_neg, zpow_natCast]
  field_simp

theorem Written.splitExponent_scale (scale : Int) :
    splitExponent ('e' :: (if scale < 0 then '-' else '+') :: Nat.toDigits 10 scale.natAbs) =
      ([], decide (scale < 0), Nat.toDigits 10 scale.natAbs) := by
  by_cases below : scale < 0 <;> simp [splitExponent, below]

theorem Written.exponentValue_eq {written : Written} {scale : Int}
    (sign : written.exponentNegative = decide (scale < 0))
    (digits : written.exponent = Nat.toDigits 10 scale.natAbs) :
    written.exponentValue = scale := by
  have spelled : digitsValue 0 (Nat.toDigits 10 scale.natAbs) = scale.natAbs :=
    Nat.ofDigitChars_ten_toDigits
  rw [exponentValue, sign, digits, spelled]
  simp only [decide_eq_true_eq]
  split <;> omega

theorem Written.ofChars_scientific (number : Decimal) (negative : Bool) :
    ∃ written : Written,
      ofChars ((if negative then ['-'] else []) ++ number.scientific.toList) = written ∧
        written.negative = negative ∧ written.size = number.value := by
  have length : 0 < number.digits.length := Nat.length_toDigits_pos
  have digit : ∀ c ∈ number.digits, c.isDigit = true := fun c member =>
    Nat.isDigit_of_mem_toDigits (by norm_num) (by norm_num) member
  have present : number.digits.take 1 ≠ [] := by
    apply List.ne_nil_of_length_pos
    rw [List.length_take]
    omega
  obtain ⟨point, isPoint, pointed, fraction⟩ : ∃ point : List Char,
      (if (number.digits.drop 1).isEmpty then [] else '.' :: number.digits.drop 1) = point ∧
      (point = [] ∨ ∃ fraction, point = '.' :: fraction ∧ ∀ c ∈ fraction, c.isDigit = true) ∧
      point.drop 1 = number.digits.drop 1 := by
    refine ⟨_, rfl, ?_, ?_⟩ <;> split
    · exact .inl rfl
    · exact .inr ⟨_, rfl, fun c member => digit c (List.mem_of_mem_drop member)⟩
    · rename_i empty
      rw [List.isEmpty_iff.mp empty]
      rfl
    · rfl
  have text : number.scientific.toList = number.digits.take 1 ++ (point ++
      'e' :: (if number.scale < 0 then '-' else '+') :: Nat.toDigits 10 number.scale.natAbs) := by
    rw [← isPoint]
    simp [scientific]
  have parts := ofChars_eq negative _ present
    (fun c member => digit c (List.mem_of_mem_take member)) pointed
    (congrArg Prod.fst (splitExponent_scale number.scale))
  rw [fraction, splitExponent_scale] at parts
  rw [text]
  refine ⟨_, parts, rfl, ?_⟩
  have spelled : digitsValue 0 number.digits = number.significand := Nat.ofDigitChars_ten_toDigits
  rw [size, exponentValue_eq rfl rfl, List.take_append_drop, spelled, List.length_drop,
    Decimal.value, scale]
  congr 2
  omega

/-- The text of a number with its sign is read as the number. -/
theorem readNearest_eq {x : Float} (finite : x.isFinite = true) (tie : Tie) {text size : String}
    (chars : text = if floatIsNegative x then "-" ++ size else size)
    (isSize : size = (Decimal.ofFloat tie x).positional ∨
      size = (Decimal.ofFloat tie x).scientific) : readNearest text = x := by
  have signed : text.toList = (if floatIsNegative x then ['-'] else []) ++ size.toList := by
    rw [chars]
    split <;> simp
  obtain ⟨written, taken, sign, same⟩ : ∃ written : Written, Written.ofChars text.toList = written ∧
      written.negative = floatIsNegative x ∧ written.size = (Decimal.ofFloat tie x).value := by
    rw [signed]
    rcases isSize with rfl | rfl
    · exact Written.ofChars_positional _ _
    · exact Written.ofChars_scientific _ _
  rw [readNearest, taken]
  exact Written.toFloat_eq finite sign same

theorem readNearest_floatText {x : Float} (finite : x.isFinite = true) :
    readNearest (Literal.floatText x) = x := by
  refine readNearest_eq finite .up ?_ (.inl rfl)
  rw [Literal.floatText, isNaN_of_isFinite finite, finite]
  rfl

theorem readNearest_jsonFloatText {x : Float} (finite : x.isFinite = true) :
    readNearest (Json.floatText x) = x := by
  refine readNearest_eq finite .toEven (if_pos finite) ?_
  split
  · exact .inl rfl
  · exact .inr rfl

end Decimal
end GraphQL

import GraphQL.Proofs.Decimal.Finiteness
import GraphQL.Proofs.Decimal.Interval
import Mathlib

/-!
# Rounding gives the number whose interval is met

A mantissa with an accuracy stands for the values that start with the mantissa. Shifting keeps what
they stand for, and the rounded mantissa is a nearest one, with an even one at a midpoint. So
whatever value is rounded to the double format, the result is a number whose interval the value is
in.
-/

namespace GraphQL

open Float.Model UnpackedFloat

/-! ## Accuracy -/

/-- The mantissa is the whole part of the value, and the accuracy tells how the rest compares with a
half. -/
def Approximates (mantissa : Nat) (accuracy : Accuracy) (value : ℚ) : Prop :=
  match accuracy with
  | .exact => value = mantissa
  | .inexact .lt => mantissa < value ∧ value < mantissa + 1 / 2
  | .inexact .eq => value = mantissa + 1 / 2
  | .inexact .gt => mantissa + 1 / 2 < value ∧ value < mantissa + 1

/-- A whole number that is nearest to a value, and even at a midpoint. -/
structure IsClosest (count : Nat) (value : ℚ) : Prop where
  lower : (count : ℚ) - 1 / 2 ≤ value
  upper : value ≤ count + 1 / 2
  odd : count % 2 ≠ 0 → (count : ℚ) - 1 / 2 < value ∧ value < count + 1 / 2

namespace Approximates

variable {mantissa : Nat} {accuracy : Accuracy} {value : ℚ}

theorem le (approximates : Approximates mantissa accuracy value) : mantissa ≤ value := by
  rcases accuracy with _ | (_ | _ | _) <;> simp only [Approximates] at approximates <;> linarith

theorem lt (approximates : Approximates mantissa accuracy value) : value < mantissa + 1 := by
  rcases accuracy with _ | (_ | _ | _) <;> simp only [Approximates] at approximates <;> linarith

/-- A quotient is told by its whole part and by how its rest compares with a half. -/
theorem fraction (count : Nat) {size : Nat} (positive : 0 < size) :
    Approximates (count / size) (accuracyOfFraction (count % size) size) (count / size : ℚ) := by
  have casted : (0 : ℚ) < size := Nat.cast_pos.mpr positive
  have parts : (count : ℚ) = size * (count / size : ℕ) + (count % size : ℕ) := by
    exact_mod_cast (Nat.div_add_mod count size).symm
  have whole : (count / size : ℚ) = (count / size : ℕ) + (count % size : ℕ) / (size : ℚ) := by
    rw [div_eq_iff casted.ne', add_mul, div_mul_cancel₀ _ casted.ne', mul_comm]
    exact parts
  have below : ((count % size : ℕ) : ℚ) / size < 1 := by
    rw [div_lt_one casted]
    exact_mod_cast Nat.mod_lt count positive
  rw [whole]
  unfold accuracyOfFraction
  split
  · rename_i none
    simp [Approximates, none]
  · rename_i rest
    have above : (0 : ℚ) < ((count % size : ℕ) : ℚ) / size :=
      div_pos (Nat.cast_pos.mpr (Nat.pos_of_ne_zero rest)) casted
    cases compared : compare (2 * (count % size)) size with
    | lt =>
        have less : 2 * (count % size) < size := Nat.compare_eq_lt.mp compared
        have half : ((count % size : ℕ) : ℚ) / size < 1 / 2 := by
          rw [div_lt_div_iff₀ casted two_pos]
          exact_mod_cast (by omega : count % size * 2 < 1 * size)
        simp only [Approximates]
        constructor <;> linarith
    | eq =>
        have same : 2 * (count % size) = size := Nat.compare_eq_eq.mp compared
        have half : ((count % size : ℕ) : ℚ) / size = 1 / 2 := by
          rw [div_eq_div_iff casted.ne' two_ne_zero]
          exact_mod_cast (by omega : count % size * 2 = 1 * size)
        simp only [Approximates]
        linarith
    | gt =>
        have more : size < 2 * (count % size) := Nat.compare_eq_gt.mp compared
        have half : 1 / 2 < ((count % size : ℕ) : ℚ) / size := by
          rw [div_lt_div_iff₀ two_pos casted]
          exact_mod_cast (by omega : 1 * size < count % size * 2)
        simp only [Approximates]
        constructor <;> linarith

theorem isClosest (approximates : Approximates mantissa accuracy value) :
    IsClosest (accuracy.roundToNearestEven mantissa) value := by
  have next : ((mantissa + 1 : ℕ) : ℚ) = mantissa + 1 := Nat.cast_succ mantissa
  rcases accuracy with _ | (_ | _ | _) <;>
    simp only [Approximates, Accuracy.roundToNearestEven] at approximates ⊢
  · exact ⟨by linarith, by linarith, fun _ => ⟨by linarith, by linarith⟩⟩
  · exact ⟨by linarith, by linarith, fun _ => ⟨by linarith, by linarith⟩⟩
  · rcases Nat.mod_two_eq_zero_or_one mantissa with even | odd
    · rw [even, Nat.add_zero]
      exact ⟨by linarith, by linarith, fun odd => absurd even odd⟩
    · rw [odd]
      exact ⟨by linarith, by linarith, fun other => absurd (by omega) other⟩
  · exact ⟨by linarith, by linarith, fun _ => ⟨by linarith, by linarith⟩⟩

end Approximates

/-! ## Shifting -/

theorem accuracy_ofMantissaAndAccuracy (mantissa : Nat) (accuracy : Accuracy) :
    (ExtendedMantissa.ofMantissaAndAccuracy mantissa accuracy).accuracy = accuracy := by
  rcases accuracy with _ | (_ | _ | _) <;> rfl

/-- A shift by one place halves the value. -/
theorem approximates_shiftRightOne {number : ExtendedMantissa} {value : ℚ}
    (approximates : Approximates number.mantissa number.accuracy value) :
    Approximates number.shiftRightOne.mantissa number.shiftRightOne.accuracy (value / 2) := by
  have half : (number.mantissa : ℚ) = 2 * (number.mantissa / 2 : ℕ) + (number.mantissa % 2 : ℕ) := by
    exact_mod_cast (Nat.div_add_mod number.mantissa 2).symm
  rcases number with ⟨mantissa, round, sticky⟩
  simp only [ExtendedMantissa.shiftRightOne] at approximates half ⊢
  rcases Nat.mod_two_eq_zero_or_one mantissa with even | odd
  · rw [even] at half ⊢
    cases round <;> cases sticky <;>
      simp [Approximates, ExtendedMantissa.accuracy] at approximates half ⊢ <;>
      first | linarith | (constructor <;> linarith)
  · rw [odd] at half ⊢
    cases round <;> cases sticky <;>
      simp [Approximates, ExtendedMantissa.accuracy] at approximates half ⊢ <;>
      first | linarith | (constructor <;> linarith)

theorem approximates_shiftRight {number : ExtendedMantissa} {value : ℚ}
    (approximates : Approximates number.mantissa number.accuracy value) (count : Nat) :
    Approximates (number >>> count).mantissa (number >>> count).accuracy (value / 2 ^ count) := by
  induction count with
  | zero =>
      rw [pow_zero, div_one]
      exact approximates
  | succ count ih =>
      rw [pow_succ, ← div_div]
      exact approximates_shiftRightOne ih

/-! ## Numbers of the double format -/

/-- A number of the double format. -/
def double (mantissa : Nat) (exponent : Int) : Binary :=
  ⟨mantissa, exponent, decide (mantissa = 2 ^ 52 ∧ -1074 < exponent)⟩

/-- A value is in the interval of its nearest mantissa. Where the neighbour below is nearer, the value
is not below the mantissa. -/
theorem IsClosest.covers {count : Nat} {value : ℚ} (nearest : IsClosest count value) {place : Int}
    (above : -1074 < place → (2 ^ 52 : ℚ) ≤ value) :
    (double count place).Covers (value * 2 ^ place) := by
  have positive : (0 : ℚ) < 2 ^ (place - 2) := by positivity
  have scaled : value * 2 ^ place = 4 * value * 2 ^ (place - 2) := by
    rw [← Binary.two_zpow_sub_two]
    ring
  unfold Binary.Covers Binary.lower Binary.upper double
  simp only [decide_eq_true_eq]
  rw [scaled]
  split
  · refine ⟨mul_le_mul_of_nonneg_right ?_ positive.le, mul_le_mul_of_nonneg_right ?_ positive.le⟩
    · split
      · rename_i nearer
        have least := above nearer.2
        rw [nearer.1]
        push_cast
        linarith
      · linarith [nearest.lower]
    · linarith [nearest.upper]
  · rename_i odd
    have inside := nearest.odd odd
    refine ⟨mul_lt_mul_of_pos_right ?_ positive, mul_lt_mul_of_pos_right ?_ positive⟩
    · rw [if_neg fun nearer => odd (by rw [nearer.1]; rfl)]
      linarith
    · linarith

/-- A nearest mantissa of one bit more is written with the next exponent. -/
theorem covers_of_carry {value : ℚ} (nearest : IsClosest (2 ^ 53) value) {place : Int}
    (bounded : -1074 ≤ place) (below : value < 2 ^ 53) :
    (double (2 ^ 52) (place + 1)).Covers (value * 2 ^ place) := by
  have positive : (0 : ℚ) < 2 ^ (place + 1 - 2) := by positivity
  have scaled : value * 2 ^ place = 2 * value * 2 ^ (place + 1 - 2) := by
    have power : (2 : ℚ) ^ place = 2 * 2 ^ (place + 1 - 2) := by
      rw [← zpow_one_add₀ two_ne_zero]
      congr 1
      omega
    rw [power]
    ring
  have nearer : -1074 < place + 1 := by omega
  have lower := nearest.lower
  push_cast at lower
  unfold Binary.Covers Binary.lower Binary.upper double
  simp only [nearer, and_true, decide_true, if_true]
  rw [scaled, if_pos (by rfl)]
  refine ⟨mul_le_mul_of_nonneg_right ?_ positive.le, mul_le_mul_of_nonneg_right ?_ positive.le⟩
  · push_cast
    linarith
  · push_cast
    linarith

theorem isDouble_double {mantissa : Nat} {exponent : Int} (short : mantissa < 2 ^ 53)
    (bounded : -1074 ≤ exponent) (normal : 2 ^ 52 ≤ mantissa ∨ exponent = -1074) :
    (double mantissa exponent).IsDouble :=
  ⟨short, bounded, normal, decide_eq_true_iff⟩

/-! ## Rounding -/

/-- A finite number, or zero if there is no mantissa. -/
def ofParts (sign : Sign) (mantissa : Nat) (exponent : Int) : UnpackedFloat :=
  if none : mantissa = 0 then .zero sign
  else .finite sign mantissa exponent (Nat.pos_of_ne_zero none)

/-- A mantissa that was rounded stays as it is, unless it has one bit more than fit. -/
theorem carry {count : Nat} {exponent : Int} (most : count ≤ 2 ^ 53) (bounded : -1074 ≤ exponent) :
    ((shiftToTargetExponent .binary64 count exponent .exact).1.mantissa,
        (shiftToTargetExponent .binary64 count exponent .exact).2) =
      if count = 2 ^ 53 then (2 ^ 52, exponent + 1) else (count, exponent) := by
  unfold shiftToTargetExponent shiftToExponent
  simp only [targetExponent_binary64, totalExponent]
  split
  · rename_i full
    subst full
    have one : (max ((((2 : Nat) ^ 53).log2 : Int) + 1 + exponent - 53) (-1074) - exponent).toNat =
        1 := by
      rw [Nat.log2_two_pow]
      omega
    rw [one]
    rfl
  · rename_i other
    have short : count.log2 < 53 := by
      by_cases none : count = 0
      · rw [none, Nat.log2_zero]
        omega
      · exact (Nat.log2_lt none).mpr (by omega)
    have none : (max ((count.log2 : Int) + 1 + exponent - 53) (-1074) - exponent).toNat = 0 := by
      omega
    rw [none]
    exact Prod.ext rfl (Int.add_zero exponent)

theorem roundWithAccuracy_of_shift {mantissa : Nat} {exponent target : Int} {accuracy : Accuracy}
    {number : ExtendedMantissa}
    (shifted : shiftToTargetExponent .binary64 mantissa exponent accuracy = (number, target))
    (sign : Sign) (most : number.roundedMantissa ≤ 2 ^ 53) (bounded : -1074 ≤ target) :
    roundWithAccuracy .binary64 sign mantissa exponent accuracy =
      if number.roundedMantissa = 2 ^ 53 then ofParts sign (2 ^ 52) (target + 1)
      else ofParts sign number.roundedMantissa target := by
  have carried := carry most bounded
  have rounds : roundWithAccuracy .binary64 sign mantissa exponent accuracy =
      ofParts sign (shiftToTargetExponent .binary64 number.roundedMantissa target .exact).1.mantissa
        (shiftToTargetExponent .binary64 number.roundedMantissa target .exact).2 := by
    unfold roundWithAccuracy
    rw [shifted]
    rfl
  rw [rounds]
  split at carried
  · rename_i full
    rw [Prod.mk.injEq] at carried
    rw [carried.1, carried.2, if_pos full]
  · rename_i other
    rw [Prod.mk.injEq] at carried
    rw [carried.1, carried.2, if_neg other]

/-- The shifted value has 53 bits before its point at most, and so many unless the exponent is least.
This needs a mantissa of enough bits or a low exponent, as only shifts to the right are made. -/
theorem exists_shiftToTargetExponent {mantissa : Nat} {exponent : Int} {accuracy : Accuracy}
    {value : ℚ} (approximates : Approximates mantissa accuracy value)
    (wide : 2 ^ 52 ≤ mantissa ∨ exponent ≤ -1074) :
    ∃ number target shifted,
      shiftToTargetExponent .binary64 mantissa exponent accuracy = (number, target) ∧
        Approximates number.mantissa number.accuracy shifted ∧
        shifted * 2 ^ target = value * 2 ^ exponent ∧ -1074 ≤ target ∧
        shifted < 2 ^ 53 ∧ (-1074 < target → (2 ^ 52 : ℚ) ≤ shifted) := by
  have long : 2 ^ 52 ≤ mantissa → 52 ≤ mantissa.log2 := fun large =>
    (Nat.le_log2 (by omega)).mpr large
  obtain ⟨target, isTarget⟩ : ∃ target : Int,
    target = max ((mantissa.log2 : Int) + 1 + exponent - 53) (-1074) := ⟨_, rfl⟩
  obtain ⟨count, isCount⟩ : ∃ count : Nat, (count : Int) = target - exponent :=
    ⟨(target - exponent).toNat, by omega⟩
  refine ⟨ExtendedMantissa.ofMantissaAndAccuracy mantissa accuracy >>> count, target,
    value / 2 ^ count, ?_, approximates_shiftRight ?_ count, ?_, by omega, ?_, ?_⟩
  · unfold shiftToTargetExponent shiftToExponent
    simp only [targetExponent_binary64, totalExponent]
    rw [← isTarget, show (target - exponent).toNat = count by omega,
      show exponent + count = target by omega]
  · rw [mantissa_ofMantissaAndAccuracy, accuracy_ofMantissaAndAccuracy]
    exact approximates
  · rw [show target = count + exponent by omega, zpow_add₀ two_ne_zero, zpow_natCast]
    field_simp
  · have bound : mantissa + 1 ≤ 2 ^ (53 + count) :=
      (Nat.lt_log2_self (n := mantissa)).trans_le (Nat.pow_le_pow_right two_pos (by omega))
    have casted : (mantissa : ℚ) + 1 ≤ 2 ^ 53 * 2 ^ count := by
      rw [← pow_add]
      exact_mod_cast bound
    rw [div_lt_iff₀ (by positivity)]
    exact approximates.lt.trans_le casted
  · intro normal
    have filled : mantissa ≠ 0 := by
      rintro rfl
      rw [Nat.log2_zero] at isTarget
      omega
    have bound : 2 ^ (52 + count) ≤ mantissa :=
      (Nat.pow_le_pow_right two_pos (by omega)).trans (Nat.log2_self_le filled)
    have casted : (2 : ℚ) ^ 52 * 2 ^ count ≤ mantissa := by
      rw [← pow_add]
      exact_mod_cast bound
    rw [le_div_iff₀ (by positivity)]
    exact casted.trans approximates.le

/-- What is rounded is in the interval of the result. -/
theorem roundWithAccuracy_covers {mantissa : Nat} {exponent : Int} {accuracy : Accuracy} {value : ℚ}
    (approximates : Approximates mantissa accuracy value)
    (wide : 2 ^ 52 ≤ mantissa ∨ exponent ≤ -1074) (sign : Sign) :
    ∃ result place,
      roundWithAccuracy .binary64 sign mantissa exponent accuracy = ofParts sign result place ∧
        (double result place).IsDouble ∧
        (double result place).Covers (value * 2 ^ exponent) := by
  rcases exists_shiftToTargetExponent approximates wide with
    ⟨number, target, scaled, shifted, scaledApproximates, power, bounded, below, above⟩
  have nearest : IsClosest number.roundedMantissa scaled := scaledApproximates.isClosest
  have rounds := roundWithAccuracy_of_shift shifted sign
  rw [← power]
  generalize number.roundedMantissa = rounded at nearest rounds
  have most : rounded ≤ 2 ^ 53 := by
    by_contra more
    have casted : ((2 : ℚ) ^ 53 + 1) ≤ rounded := by exact_mod_cast Nat.not_le.mp more
    linarith [nearest.lower]
  rw [rounds most bounded]
  split
  · rename_i full
    rw [full] at nearest
    exact ⟨2 ^ 52, target + 1, rfl, isDouble_double (by norm_num) (by omega) (.inl le_rfl),
      covers_of_carry nearest bounded below⟩
  · refine ⟨rounded, target, rfl, isDouble_double (by omega) bounded ?_, nearest.covers above⟩
    by_cases normal : -1074 < target
    · refine .inl ?_
      by_contra less
      have casted : (rounded : ℚ) + 1 ≤ 2 ^ 52 := by exact_mod_cast Nat.not_le.mp less
      linarith [nearest.upper, above normal]
    · exact .inr (by omega)

/-- What is in the interval of a number is rounded to this number. -/
theorem roundWithAccuracy_of_covers {mantissa result : Nat} {exponent place : Int}
    {accuracy : Accuracy} {value : ℚ} (approximates : Approximates mantissa accuracy value)
    (wide : 2 ^ 52 ≤ mantissa ∨ exponent ≤ -1074) (sign : Sign)
    (isDouble : (double result place).IsDouble)
    (covers : (double result place).Covers (value * 2 ^ exponent)) :
    roundWithAccuracy .binary64 sign mantissa exponent accuracy = ofParts sign result place := by
  rcases roundWithAccuracy_covers approximates wide sign with
    ⟨other, otherPlace, rounds, otherIsDouble, otherCovers⟩
  obtain ⟨sameMantissa, samePlace⟩ : other = result ∧ otherPlace = place :=
    otherCovers.unique otherIsDouble isDouble covers
  rw [rounds, sameMantissa, samePlace]

/-! ## Products and quotients -/

section

variable {mantissa other result : Nat} (exponent otherExponent : Int) {place : Int}
  (sign otherSign : Sign) (positive : 0 < mantissa) (otherPositive : 0 < other)
  (isDouble : (double result place).IsDouble)

include isDouble

theorem mul_of_covers (wide : 2 ^ 52 ≤ mantissa * other)
    (covers : (double result place).Covers (mantissa * other * 2 ^ (exponent + otherExponent))) :
    UnpackedFloat.mul .binary64 (.finite sign mantissa exponent positive)
        (.finite otherSign other otherExponent otherPositive) =
      ofParts (sign * otherSign) result place := by
  have exact : Approximates (mantissa * other) .exact ((mantissa : ℚ) * other) := by
    simp [Approximates]
  exact roundWithAccuracy_of_covers exact (.inl wide) _ isDouble covers

theorem div_of_covers
    (covers : (double result place).Covers (mantissa / other * 2 ^ (exponent - otherExponent))) :
    UnpackedFloat.div .binary64 (.finite sign mantissa exponent positive)
        (.finite otherSign other otherExponent otherPositive) =
      ofParts (sign / otherSign) result place := by
  obtain ⟨target, isTarget⟩ : ∃ target : Int, target = min (exponent - otherExponent)
      (max ((mantissa.log2 : Int) + 1 + exponent - (other.log2 + 1 + otherExponent) - 53)
        (-1074)) := ⟨_, rfl⟩
  obtain ⟨count, isCount⟩ : ∃ count : Nat, (count : Int) = exponent - otherExponent - target :=
    ⟨(exponent - otherExponent - target).toNat, by omega⟩
  have core : divCore .binary64 mantissa exponent other otherExponent =
      (mantissa <<< count / other, target,
        accuracyOfFraction (mantissa <<< count % other) other) := by
    unfold divCore
    simp only [targetExponent_binary64, totalExponent]
    rw [← isTarget, show (exponent - otherExponent - target).toNat = count by omega]
  have approximates := Approximates.fraction (mantissa <<< count) otherPositive
  have wide : 2 ^ 52 ≤ mantissa <<< count / other ∨ target ≤ -1074 := by
    by_cases least : target ≤ -1074
    · exact .inr least
    · refine .inl ((Nat.le_div_iff_mul_le otherPositive).mpr ?_)
      calc 2 ^ 52 * other ≤ 2 ^ 52 * 2 ^ (other.log2 + 1) :=
            Nat.mul_le_mul_left _ Nat.lt_log2_self.le
        _ = 2 ^ (52 + (other.log2 + 1)) := (Nat.pow_add 2 _ _).symm
        _ ≤ 2 ^ (mantissa.log2 + count) := Nat.pow_le_pow_right two_pos (by omega)
        _ = 2 ^ mantissa.log2 * 2 ^ count := Nat.pow_add 2 _ _
        _ ≤ mantissa * 2 ^ count := Nat.mul_le_mul_right _ (Nat.log2_self_le positive.ne')
        _ = mantissa <<< count := (Nat.shiftLeft_eq _ _).symm
  have power : ((mantissa <<< count : ℕ) : ℚ) / other * 2 ^ target =
      mantissa / other * 2 ^ (exponent - otherExponent) := by
    rw [show exponent - otherExponent = count + target by omega, zpow_add₀ two_ne_zero,
      zpow_natCast, Nat.shiftLeft_eq]
    push_cast
    ring
  rw [← power] at covers
  change roundWithAccuracy .binary64 (sign / otherSign)
    (divCore .binary64 mantissa exponent other otherExponent).1
    (divCore .binary64 mantissa exponent other otherExponent).2.1
    (divCore .binary64 mantissa exponent other otherExponent).2.2 = _
  rw [core]
  exact roundWithAccuracy_of_covers approximates wide _ isDouble covers

end

end GraphQL

import GraphQL.Decimal
import Mathlib.Algebra.Order.Field.Basic
import Mathlib.Algebra.Order.Field.Power
import Mathlib.Data.Rat.Cast.Order
import Mathlib.Tactic.GCongr
import Mathlib.Tactic.Linarith
import Mathlib.Tactic.NormNum
import Mathlib.Tactic.Positivity
import Mathlib.Tactic.Ring

/-!
# Intervals of binary numbers

The decimals that read back as a binary number lie between the midpoints to its neighbours. For two
binary numbers of the double format these intervals do not meet: at most they share an end, and then
one of the two mantissas is odd and its interval is open.
-/

namespace GraphQL

/-- The number that a decimal stands for. -/
def Decimal.value (number : Decimal) : ℚ :=
  number.significand * (10 : ℚ) ^ number.exponent

namespace Binary

/-- The number itself. -/
def value (number : Binary) : ℚ :=
  number.mantissa * (2 : ℚ) ^ number.exponent

/-- The midpoint to the neighbour below. -/
def lower (number : Binary) : ℚ :=
  (4 * number.mantissa - if number.nearerBelow then 1 else 2) * (2 : ℚ) ^ (number.exponent - 2)

/-- The midpoint to the neighbour above. -/
def upper (number : Binary) : ℚ :=
  (4 * number.mantissa + 2) * (2 : ℚ) ^ (number.exponent - 2)

/-- The interval of what reads back as the number; its ends belong to it for an even mantissa. -/
def Covers (number : Binary) (decimal : ℚ) : Prop :=
  if number.mantissa % 2 = 0 then number.lower ≤ decimal ∧ decimal ≤ number.upper
  else number.lower < decimal ∧ decimal < number.upper

/-- The shape of the numbers of the double format: a mantissa of 53 bits whose first bit is set,
unless the exponent is least. -/
structure IsDouble (number : Binary) : Prop where
  short : number.mantissa < 2 ^ 53
  bounded : -1074 ≤ number.exponent
  normal : 2 ^ 52 ≤ number.mantissa ∨ number.exponent = -1074
  nearerBelow_iff : number.nearerBelow = true ↔
    number.mantissa = 2 ^ 52 ∧ -1074 < number.exponent

theorem ofFloat_isDouble (x : Float) : (ofFloat x).IsDouble := by
  have fractionShort : x.toBits.toNat % Nat.pow 2 52 < 2 ^ 52 := Nat.mod_lt _ (by norm_num)
  unfold ofFloat
  simp only
  split
  · exact ⟨by simp only; omega, by simp, .inr rfl, by simp⟩
  · exact ⟨by simp only [Nat.pow_eq] at *; omega, by simp only; omega,
      .inl (by simp only [Nat.pow_eq]; omega),
      by simp only [Bool.and_eq_true, beq_iff_eq, decide_eq_true_eq, Nat.pow_eq] at *; omega⟩

/-! ## Fractions as numbers -/

theorem quarterPlace_pos (number : Binary) : 0 < number.quarterPlace.2 := by
  unfold quarterPlace
  simp only
  split
  · exact Nat.pow_pos (by norm_num)
  · exact Nat.one_pos

theorem quarterPlace_eq (number : Binary) :
    (number.quarterPlace.1 : ℚ) / number.quarterPlace.2 = 2 ^ (number.exponent - 2) := by
  unfold quarterPlace
  simp only [Nat.pow_eq]
  split
  · rename_i negative
    rw [Nat.cast_one, Nat.cast_pow, one_div, Nat.cast_ofNat, ← zpow_natCast, ← zpow_neg]
    congr 1
    omega
  · rename_i whole
    rw [Nat.cast_one, div_one, Nat.cast_pow, Nat.cast_ofNat, ← zpow_natCast]
    congr 1
    omega

theorem two_zpow_sub_two (exponent : Int) : (4 : ℚ) * 2 ^ (exponent - 2) = 2 ^ exponent := by
  rw [zpow_sub₀ (by norm_num)]
  norm_num
  ring

theorem numerator_div_denominator (number : Binary) :
    (number.numerator : ℚ) / number.denominator = number.value := by
  unfold numerator denominator value
  push_cast
  rw [mul_div_assoc, quarterPlace_eq, mul_comm (4 : ℚ), mul_assoc, two_zpow_sub_two]

theorem lowerNumerator_div_denominator (number : Binary) (positive : 0 < number.mantissa) :
    (number.lowerNumerator : ℚ) / number.denominator = number.lower := by
  unfold lowerNumerator denominator lower
  rw [Nat.cast_mul, mul_div_assoc, quarterPlace_eq, Nat.cast_sub (by split <;> omega)]
  split <;> push_cast <;> rfl

theorem upperNumerator_div_denominator (number : Binary) :
    (number.upperNumerator : ℚ) / number.denominator = number.upper := by
  unfold upperNumerator denominator upper
  rw [Nat.cast_mul, mul_div_assoc, quarterPlace_eq]
  push_cast
  rfl

theorem gridFraction_pos (count : Nat) (grid : Int) : 0 < (gridFraction count grid).2 := by
  unfold gridFraction
  split
  · exact Nat.pow_pos (by norm_num)
  · exact Nat.one_pos

theorem gridFraction_eq (count : Nat) (grid : Int) :
    ((gridFraction count grid).1 : ℚ) / (gridFraction count grid).2 = count * 10 ^ grid := by
  unfold gridFraction
  simp only [Nat.pow_eq]
  split
  · rename_i negative
    rw [div_eq_mul_inv, Nat.cast_pow, Nat.cast_ofNat, ← zpow_natCast, ← zpow_neg]
    congr 2
    omega
  · rename_i whole
    rw [Nat.cast_one, div_one, Nat.cast_mul, Nat.cast_pow, Nat.cast_ofNat, ← zpow_natCast]
    congr 2
    omega

/-- The comparison of fractions decides the interval. -/
theorem readsBack_iff {number : Binary} (positive : 0 < number.mantissa) {count : Nat}
    {grid : Int} : number.readsBack count grid = true ↔ number.Covers (count * 10 ^ grid) := by
  have below : (0 : ℚ) < number.denominator := Nat.cast_pos.mpr number.quarterPlace_pos
  have gridBelow : (0 : ℚ) < (gridFraction count grid).2 :=
    Nat.cast_pos.mpr (gridFraction_pos count grid)
  unfold readsBack Covers
  rw [← lowerNumerator_div_denominator number positive, ← upperNumerator_div_denominator number,
    ← gridFraction_eq, div_le_div_iff₀ below gridBelow, div_le_div_iff₀ gridBelow below,
    div_lt_div_iff₀ below gridBelow, div_lt_div_iff₀ gridBelow below]
  split <;> simp only [Bool.and_eq_true, decide_eq_true_eq] <;> norm_cast

/-! ## Disjoint intervals -/

theorem Covers.lower_le {number : Binary} {decimal : ℚ} (covers : number.Covers decimal) :
    number.lower ≤ decimal := by
  unfold Covers at covers
  split at covers
  · exact covers.1
  · exact covers.1.le

theorem Covers.le_upper {number : Binary} {decimal : ℚ} (covers : number.Covers decimal) :
    decimal ≤ number.upper := by
  unfold Covers at covers
  split at covers
  · exact covers.2
  · exact covers.2.le

theorem Covers.lower_lt {number : Binary} {decimal : ℚ} (covers : number.Covers decimal)
    (odd : number.mantissa % 2 ≠ 0) : number.lower < decimal := by
  unfold Covers at covers
  rw [if_neg odd] at covers
  exact covers.1

theorem Covers.lt_upper {number : Binary} {decimal : ℚ} (covers : number.Covers decimal)
    (odd : number.mantissa % 2 ≠ 0) : decimal < number.upper := by
  unfold Covers at covers
  rw [if_neg odd] at covers
  exact covers.2

/-- At a common place of the exponent, the upper midpoint of a number and the lower one of a number
with a greater mantissa meet only if one of the mantissas is odd. -/
theorem upper_le_lower_of_mantissa {left right : Binary} (rightIsDouble : right.IsDouble)
    (leftIsDouble : left.IsDouble) (same : left.exponent = right.exponent)
    (less : left.mantissa < right.mantissa) :
    left.upper ≤ right.lower ∧
      (left.mantissa % 2 = 0 → right.mantissa % 2 = 0 → left.upper < right.lower) := by
  have far : right.nearerBelow = false := by
    rw [Bool.eq_false_iff]
    intro nearer
    have shape := rightIsDouble.nearerBelow_iff.mp nearer
    have normal := leftIsDouble.normal
    omega
  have place : (0 : ℚ) < 2 ^ (right.exponent - 2) := by positivity
  have next : (left.mantissa : ℚ) + 1 ≤ right.mantissa := by exact_mod_cast less
  unfold upper lower
  rw [same, far]
  constructor
  · apply mul_le_mul_of_nonneg_right _ place.le
    simp only [Bool.false_eq_true, if_false]
    linarith
  · intro leftEven rightEven
    have apart : (left.mantissa : ℚ) + 2 ≤ right.mantissa := by
      have gap : left.mantissa + 2 ≤ right.mantissa := by omega
      exact_mod_cast gap
    apply mul_lt_mul_of_pos_right _ place
    simp only [Bool.false_eq_true, if_false]
    linarith

/-- A number with a lesser exponent ends before one with a greater exponent begins, unless its
mantissa is the greatest and so odd. -/
theorem upper_le_lower_of_exponent {left right : Binary} (leftIsDouble : left.IsDouble)
    (rightIsDouble : right.IsDouble) (less : left.exponent < right.exponent) :
    left.upper ≤ right.lower ∧ (left.mantissa % 2 = 0 → left.upper < right.lower) := by
  have short := leftIsDouble.short
  have normal : 2 ^ 52 ≤ right.mantissa := by
    rcases rightIsDouble.normal with normal | least
    · exact normal
    · have bounded := leftIsDouble.bounded
      omega
  have place : (0 : ℚ) < 2 ^ (left.exponent - 2) := by positivity
  -- The midpoint below is at least the one of the least mantissa, one exponent up.
  have beyond : (2 * (2 ^ 54 - 1) : ℚ) * 2 ^ (left.exponent - 2) ≤ right.lower := by
    have deeper : (2 : ℚ) * 2 ^ (left.exponent - 2) ≤ 2 ^ (right.exponent - 2) := by
      rw [← zpow_one_add₀ (by norm_num)]
      exact zpow_le_zpow_right₀ (by norm_num) (by omega)
    have count : (2 ^ 54 - 1 : ℚ) ≤ 4 * right.mantissa - if right.nearerBelow then 1 else 2 := by
      split
      · have casted : (2 ^ 52 : ℚ) ≤ right.mantissa := by exact_mod_cast normal
        linarith
      · rename_i far
        have more : 2 ^ 52 + 1 ≤ right.mantissa := by
          have shape := mt rightIsDouble.nearerBelow_iff.mpr far
          have bounded := leftIsDouble.bounded
          omega
        have casted : (2 ^ 52 + 1 : ℚ) ≤ right.mantissa := by exact_mod_cast more
        linarith
    calc (2 * (2 ^ 54 - 1) : ℚ) * 2 ^ (left.exponent - 2)
        = (2 ^ 54 - 1) * (2 * 2 ^ (left.exponent - 2)) := by ring
      _ ≤ (2 ^ 54 - 1) * 2 ^ (right.exponent - 2) := by gcongr
      _ ≤ right.lower := by
          unfold lower
          gcongr
  constructor
  · refine le_trans (mul_le_mul_of_nonneg_right ?_ place.le) beyond
    have most : (left.mantissa : ℚ) ≤ 2 ^ 53 - 1 := by
      have bound : left.mantissa + 1 ≤ 2 ^ 53 := short
      have casted : (left.mantissa : ℚ) + 1 ≤ 2 ^ 53 := by exact_mod_cast bound
      linarith
    linarith
  · intro even
    refine lt_of_lt_of_le (mul_lt_mul_of_pos_right ?_ place) beyond
    have most : (left.mantissa : ℚ) ≤ 2 ^ 53 - 2 := by
      have bound : left.mantissa + 2 ≤ 2 ^ 53 := by omega
      have casted : (left.mantissa : ℚ) + 2 ≤ 2 ^ 53 := by exact_mod_cast bound
      linarith
    linarith

/-- No decimal is in the intervals of two numbers. -/
theorem Covers.not_both {left right : Binary} (leftIsDouble : left.IsDouble)
    (rightIsDouble : right.IsDouble) {decimal : ℚ} (leftCovers : left.Covers decimal)
    (rightCovers : right.Covers decimal)
    (less : left.exponent < right.exponent ∨
      left.exponent = right.exponent ∧ left.mantissa < right.mantissa) : False := by
  have ends : left.upper ≤ right.lower ∧
      (left.mantissa % 2 = 0 → right.mantissa % 2 = 0 → left.upper < right.lower) := by
    rcases less with less | ⟨same, less⟩
    · have ordered := upper_le_lower_of_exponent leftIsDouble rightIsDouble less
      exact ⟨ordered.1, fun even _ => ordered.2 even⟩
    · exact upper_le_lower_of_mantissa rightIsDouble leftIsDouble same less
  by_cases leftEven : left.mantissa % 2 = 0
  · by_cases rightEven : right.mantissa % 2 = 0
    · have apart := ends.2 leftEven rightEven
      have before := leftCovers.le_upper
      have after := rightCovers.lower_le
      linarith
    · have before := leftCovers.le_upper
      have after := rightCovers.lower_lt rightEven
      linarith [ends.1]
  · have before := leftCovers.lt_upper leftEven
    have after := rightCovers.lower_le
    linarith [ends.1]

/-- A decimal tells which number it reads back as. -/
theorem Covers.unique {left right : Binary} (leftIsDouble : left.IsDouble)
    (rightIsDouble : right.IsDouble) {decimal : ℚ} (leftCovers : left.Covers decimal)
    (rightCovers : right.Covers decimal) :
    left.mantissa = right.mantissa ∧ left.exponent = right.exponent := by
  rcases lt_trichotomy left.exponent right.exponent with less | same | less
  · exact (leftCovers.not_both leftIsDouble rightIsDouble rightCovers (.inl less)).elim
  · rcases lt_trichotomy left.mantissa right.mantissa with less | equal | less
    · exact (leftCovers.not_both leftIsDouble rightIsDouble rightCovers (.inr ⟨same, less⟩)).elim
    · exact ⟨equal, same⟩
    · exact (rightCovers.not_both rightIsDouble leftIsDouble leftCovers
        (.inr ⟨same.symm, less⟩)).elim
  · exact (rightCovers.not_both rightIsDouble leftIsDouble leftCovers (.inl less)).elim

end Binary

end GraphQL

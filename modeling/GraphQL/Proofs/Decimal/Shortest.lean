import GraphQL.Proofs.Decimal.Interval

/-!
# Shortest decimals

The decimal that is written for a binary number reads back as it: a number of digits is taken only
if it does, and with seventeen digits one of the two decimals next to the number always does, since
they are closer to each other than the two midpoints are.
-/

namespace GraphQL

theorem pow_length_toDigits_le {value : Nat} (positive : 0 < value) :
    10 ^ ((Nat.toDigits 10 value).length - 1) ≤ value := by
  rcases Nat.eq_zero_or_pos ((Nat.toDigits 10 value).length - 1) with single | more
  · rw [single]
    exact positive
  · by_contra less
    have short := (Nat.length_toDigits_le_iff (by norm_num) more).mpr (Nat.not_le.mp less)
    omega

theorem lt_pow_length_toDigits (value : Nat) : value < 10 ^ (Nat.toDigits 10 value).length :=
  (Nat.length_toDigits_le_iff (by norm_num) Nat.length_toDigits_pos).mp le_rfl

namespace Binary

variable {number : Binary}

theorem value_pos (positive : 0 < number.mantissa) : 0 < number.value := by
  have casted : (0 : ℚ) < number.mantissa := Nat.cast_pos.mpr positive
  unfold value
  positivity

/-! ## The size of a number -/

/-- A number is not less than the power of ten of its first digit. -/
theorem le_value_of_magnitude (positive : 0 < number.mantissa) :
    (10 : ℚ) ^ (number.magnitude - 1) ≤ number.value := by
  have below : 0 < number.denominator := number.quarterPlace_pos
  have casted : (0 : ℚ) < number.denominator := Nat.cast_pos.mpr below
  have above : 0 < number.numerator := by
    have size := value_pos positive
    rw [← numerator_div_denominator] at size
    exact Nat.cast_pos.mp ((div_pos_iff_of_pos_right casted).mp size)
  rw [← numerator_div_denominator, le_div_iff₀ casted]
  unfold magnitude
  split
  · rename_i large
    have digits := pow_length_toDigits_le (Nat.div_pos large below)
    have length : 0 < (Nat.toDigits 10 (number.numerator / number.denominator)).length :=
      Nat.length_toDigits_pos
    have power := (Nat.le_div_iff_mul_le below).mp digits
    rw [show ((Nat.toDigits 10 (number.numerator / number.denominator)).length : Int) - 1 =
      (((Nat.toDigits 10 (number.numerator / number.denominator)).length - 1 : Nat) : Int) by
        omega, zpow_natCast]
    exact_mod_cast power
  · have digits := lt_pow_length_toDigits ((number.denominator - 1) / number.numerator)
    have power := (Nat.div_lt_iff_lt_mul above).mp digits
    have reached : number.denominator ≤
        10 ^ (Nat.toDigits 10 ((number.denominator - 1) / number.numerator)).length
          * number.numerator := by
      omega
    rw [show (1 : Int) - ((Nat.toDigits 10 ((number.denominator - 1) / number.numerator)).length
        : Int) - 1 =
      -((Nat.toDigits 10 ((number.denominator - 1) / number.numerator)).length : Int) by omega,
      zpow_neg, zpow_natCast, inv_mul_le_iff₀ (by positivity)]
    exact_mod_cast reached

theorem floorOnGrid_eq (number : Binary) (grid : Int) :
    number.floorOnGrid grid =
      number.numerator * (gridFraction 1 grid).2 /
        (number.denominator * (gridFraction 1 grid).1) := by
  unfold floorOnGrid gridFraction
  split <;> simp

/-- The multiples of a power of ten next to a number are around it. -/
theorem floorOnGrid_spec (number : Binary) (grid : Int) :
    (number.floorOnGrid grid : ℚ) * 10 ^ grid ≤ number.value ∧
      number.value < (number.floorOnGrid grid + 1 : ℕ) * 10 ^ grid := by
  have place := gridFraction_eq 1 grid
  have below : 0 < number.denominator := number.quarterPlace_pos
  have gridBelow := gridFraction_pos 1 grid
  rw [Nat.cast_one, one_mul] at place
  have gridAbove : 0 < (gridFraction 1 grid).1 := by
    have power : (0 : ℚ) < 10 ^ grid := by positivity
    rw [← place] at power
    exact Nat.cast_pos.mp ((div_pos_iff_of_pos_right (Nat.cast_pos.mpr gridBelow)).mp power)
  have product : 0 < number.denominator * (gridFraction 1 grid).1 := Nat.mul_pos below gridAbove
  have floor := Nat.div_mul_le_self (number.numerator * (gridFraction 1 grid).2)
    (number.denominator * (gridFraction 1 grid).1)
  have next := Nat.lt_mul_of_div_lt
    (Nat.lt_succ_self (number.numerator * (gridFraction 1 grid).2 /
      (number.denominator * (gridFraction 1 grid).1))) product
  rw [← floorOnGrid_eq] at floor next
  rw [← numerator_div_denominator, ← place, mul_div_assoc', mul_div_assoc',
    div_le_div_iff₀ (Nat.cast_pos.mpr gridBelow) (Nat.cast_pos.mpr below),
    div_lt_div_iff₀ (Nat.cast_pos.mpr below) (Nat.cast_pos.mpr gridBelow)]
  constructor
  · calc (number.floorOnGrid grid : ℚ) * (gridFraction 1 grid).1 * number.denominator
        = (number.floorOnGrid grid * (number.denominator * (gridFraction 1 grid).1) : ℕ) := by
          push_cast
          ring
      _ ≤ (number.numerator * (gridFraction 1 grid).2 : ℕ) := Nat.cast_le.mpr floor
      _ = (number.numerator : ℚ) * (gridFraction 1 grid).2 := Nat.cast_mul _ _
  · calc (number.numerator : ℚ) * (gridFraction 1 grid).2
        = (number.numerator * (gridFraction 1 grid).2 : ℕ) := (Nat.cast_mul _ _).symm
      _ < ((number.floorOnGrid grid).succ * (number.denominator * (gridFraction 1 grid).1) : ℕ) :=
          Nat.cast_lt.mpr next
      _ = ((number.floorOnGrid grid + 1 : ℕ) : ℚ) * (gridFraction 1 grid).1
            * number.denominator := by
          push_cast
          ring

/-! ## Seventeen digits -/

/-- The midpoints to the neighbours are farther apart than the numbers of seventeen digits. -/
theorem grid_lt_width (isDouble : number.IsDouble) (positive : 0 < number.mantissa) :
    (10 : ℚ) ^ (number.magnitude - 17) < number.upper - number.lower := by
  have size := le_value_of_magnitude positive
  have place : (0 : ℚ) < 2 ^ (number.exponent - 2) := by positivity
  have grid : (10 : ℚ) ^ (number.magnitude - 17) * 10 ^ 16 = 10 ^ (number.magnitude - 1) := by
    rw [← zpow_natCast (10 : ℚ) 16, ← zpow_add₀ (by norm_num)]
    congr 1
    omega
  rw [← grid, value, ← two_zpow_sub_two number.exponent] at size
  unfold upper lower
  cases nearer : number.nearerBelow with
  | true =>
      have least := (isDouble.nearerBelow_iff.mp nearer).1
      rw [least] at size
      push_cast at size
      simp only [if_true]
      nlinarith
  | false =>
      have short : (number.mantissa : ℚ) ≤ 2 ^ 53 := by exact_mod_cast isDouble.short.le
      have scaled := mul_le_mul_of_nonneg_right short place.le
      simp only [Bool.false_eq_true, if_false]
      nlinarith

theorem lower_lt_value (number : Binary) : number.lower < number.value := by
  have place : (0 : ℚ) < 2 ^ (number.exponent - 2) := by positivity
  unfold lower value
  rw [← two_zpow_sub_two number.exponent]
  split <;> nlinarith

theorem value_lt_upper (number : Binary) : number.value < number.upper := by
  have place : (0 : ℚ) < 2 ^ (number.exponent - 2) := by positivity
  unfold upper value
  rw [← two_zpow_sub_two number.exponent]
  nlinarith

/-- A number is in its own interval. -/
theorem covers_value (number : Binary) : number.Covers number.value := by
  unfold Covers
  split
  · exact ⟨number.lower_lt_value.le, number.value_lt_upper.le⟩
  · exact ⟨number.lower_lt_value, number.value_lt_upper⟩

/-- One of the two decimals of seventeen digits next to a number reads back as it. -/
theorem exists_covers (isDouble : number.IsDouble) (positive : 0 < number.mantissa) :
    number.Covers (number.floorOnGrid (number.magnitude - 17) * 10 ^ (number.magnitude - 17)) ∨
      number.Covers ((number.floorOnGrid (number.magnitude - 17) + 1 : ℕ)
        * 10 ^ (number.magnitude - 17)) := by
  have width := grid_lt_width isDouble positive
  have around := number.floorOnGrid_spec (number.magnitude - 17)
  have lower := number.lower_lt_value
  have upper := number.value_lt_upper
  have step : ((number.floorOnGrid (number.magnitude - 17) + 1 : ℕ) : ℚ)
        * 10 ^ (number.magnitude - 17) =
      number.floorOnGrid (number.magnitude - 17) * 10 ^ (number.magnitude - 17)
        + 10 ^ (number.magnitude - 17) := by
    push_cast
    ring
  rw [step] at around ⊢
  unfold Covers
  by_contra neither
  rw [not_or] at neither
  split at neither
  · simp only [not_and, not_le] at neither
    have above := neither.2 (by linarith)
    rcases lt_or_ge (number.floorOnGrid (number.magnitude - 17) * (10 : ℚ) ^ (number.magnitude - 17))
      number.lower with less | between
    · linarith
    · linarith [neither.1 between]
  · simp only [not_and, not_lt] at neither
    have above := neither.2 (by linarith)
    rcases le_or_gt
      (number.floorOnGrid (number.magnitude - 17) * (10 : ℚ) ^ (number.magnitude - 17))
      number.lower with less | between
    · linarith
    · linarith [neither.1 between]

/-! ## The decimal that is written -/

theorem onGrid_value (count digits : Nat) (grid : Int) :
    (onGrid count digits grid).value = count * 10 ^ grid := by
  unfold onGrid Decimal.value
  split
  · rename_i full
    rw [full, zpow_add₀ (by norm_num), zpow_natCast]
    simp only [Nat.pow_eq]
    push_cast
    ring
  · rfl

theorem withDigits?_covers (positive : 0 < number.mantissa) {tie : Tie} {digits : Nat}
    {decimal : Decimal} (taken : number.withDigits? tie digits = some decimal) :
    number.Covers decimal.value := by
  unfold withDigits? at taken
  simp only at taken
  split at taken
  · rename_i floor next
    cases taken
    rw [onGrid_value, ← readsBack_iff positive]
    split
    · exact floor
    · exact next
  · rename_i floor next
    cases taken
    rw [onGrid_value, ← readsBack_iff positive]
    exact floor
  · rename_i floor next
    cases taken
    rw [onGrid_value, ← readsBack_iff positive]
    exact next
  · cases taken

theorem isSome_withDigits?_iff {tie : Tie} {digits : Nat} :
    (number.withDigits? tie digits).isSome ↔
      number.readsBack (number.floorOnGrid (number.magnitude - digits))
          (number.magnitude - digits) = true ∨
        number.readsBack (number.floorOnGrid (number.magnitude - digits) + 1)
          (number.magnitude - digits) = true := by
  unfold withDigits?
  simp only
  split <;> simp_all

/-- The shortest decimal reads back as the number. -/
theorem shortest_covers (isDouble : number.IsDouble) (positive : 0 < number.mantissa) (tie : Tie) :
    number.Covers (number.shortest tie).value := by
  have suffices17 : (number.withDigits? tie 17).isSome := by
    rw [isSome_withDigits?_iff, readsBack_iff positive, readsBack_iff positive]
    exact exists_covers isDouble positive
  unfold shortest
  rw [if_neg positive.ne']
  cases found : (List.range 17).findSome? fun index => number.withDigits? tie (index + 1) with
  | none =>
      rw [List.findSome?_eq_none_iff] at found
      have none17 := found 16 (by decide)
      rw [none17] at suffices17
      cases suffices17
  | some decimal =>
      rcases List.exists_of_findSome?_eq_some found with ⟨index, _, taken⟩
      exact withDigits?_covers positive taken

theorem Covers.pos (positive : 0 < number.mantissa) {decimal : ℚ}
    (covers : number.Covers decimal) : 0 < decimal := by
  refine lt_of_lt_of_le ?_ covers.lower_le
  have casted : (1 : ℚ) ≤ number.mantissa := Nat.one_le_cast.mpr positive
  have place : (0 : ℚ) < 2 ^ (number.exponent - 2) := by positivity
  unfold lower
  apply mul_pos _ place
  split <;> linarith

/-- Numbers with decimals of one value are the same. -/
theorem eq_of_shortest_value {left right : Binary} (leftIsDouble : left.IsDouble)
    (rightIsDouble : right.IsDouble) {tie : Tie}
    (same : (left.shortest tie).value = (right.shortest tie).value) :
    left.mantissa = right.mantissa ∧ left.exponent = right.exponent := by
  have zero : ∀ {number : Binary}, number.mantissa = 0 → (number.shortest tie).value = 0 := by
    intro number zero
    simp [shortest, zero, Decimal.value]
  rcases Nat.eq_zero_or_pos left.mantissa with leftZero | leftPos
  · rcases Nat.eq_zero_or_pos right.mantissa with rightZero | rightPos
    · have leftNormal := leftIsDouble.normal
      have rightNormal := rightIsDouble.normal
      omega
    · have positive := (shortest_covers rightIsDouble rightPos tie).pos rightPos
      rw [← same, zero leftZero] at positive
      exact absurd positive (lt_irrefl _)
  · have covers := shortest_covers leftIsDouble leftPos tie
    rcases Nat.eq_zero_or_pos right.mantissa with rightZero | rightPos
    · have positive := covers.pos leftPos
      rw [same, zero rightZero] at positive
      exact absurd positive (lt_irrefl _)
    · rw [same] at covers
      exact covers.unique leftIsDouble rightIsDouble (shortest_covers rightIsDouble rightPos tie)

end Binary
end GraphQL

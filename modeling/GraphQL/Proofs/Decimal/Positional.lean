import GraphQL.Document.Printer
import GraphQL.Proofs.Decimal.Shortest
import GraphQL.Proofs.Text.Quoted

/-!
# Positional texts

The digits before and after the point of a positional text give back the number that it stands for.
The text of a finite floating-point literal therefore tells which number it is: the sign is the
sign bit, and the rest reads back as the absolute value.
-/

namespace GraphQL
namespace Decimal

/-- A positional text is digits, a point and digits, which spell the number. -/
theorem exists_parts (number : Decimal) :
    ∃ whole fraction : List Char, number.positional.toList = whole ++ '.' :: fraction ∧
      (whole ≠ [] ∧ fraction ≠ []) ∧ (∀ c ∈ whole, c.isDigit = true) ∧
      (∀ c ∈ fraction, c.isDigit = true) ∧
      (Nat.ofDigitChars 10 (whole ++ fraction) 0 : ℚ) = number.value * 10 ^ fraction.length := by
  have digit : ∀ c ∈ number.digits, c.isDigit = true := fun c member =>
    Nat.isDigit_of_mem_toDigits (by norm_num) (by norm_num) member
  have zeros : ∀ count : Nat, ∀ c ∈ List.replicate count '0', c.isDigit = true := by
    intro count c member
    rw [List.eq_of_mem_replicate member]
    rfl
  have length : 0 < number.digits.length := Nat.length_toDigits_pos
  have spelled : Nat.ofDigitChars 10 number.digits 0 = number.significand :=
    Nat.ofDigitChars_ten_toDigits
  have point : number.scale + 1 = number.exponent + number.digits.length := by
    unfold scale
    omega
  unfold positional value
  simp only [point]
  split
  · rename_i whole
    refine ⟨number.digits ++ List.replicate number.exponent.natAbs '0', ['0'], ?_, ?_, ?_, ?_, ?_⟩
    · simp
    · exact ⟨List.append_ne_nil_of_left_ne_nil (List.ne_nil_of_length_pos length) _, by simp⟩
    · intro c member
      exact (List.mem_append.mp member).elim (digit c) (zeros _ c)
    · exact zeros 1
    · rw [List.append_assoc, Nat.ofDigitChars_append, spelled, ← List.replicate_succ',
        Nat.ofDigitChars_replicate_zero, List.length_singleton, pow_one, pow_succ]
      have power : (10 : ℚ) ^ number.exponent = 10 ^ number.exponent.natAbs := by
        rw [← zpow_natCast]
        congr 1
        omega
      rw [power]
      push_cast
      ring
  · rename_i negative
    have power : ∀ count : Nat, (count : Int) = -number.exponent →
        (number.significand : ℚ) = number.significand * 10 ^ number.exponent * 10 ^ count := by
      intro count same
      rw [mul_assoc, ← zpow_natCast, ← zpow_add₀ (by norm_num), same, add_neg_cancel, zpow_zero,
        mul_one]
    split
    · rename_i small
      refine ⟨['0'], List.replicate (number.exponent + number.digits.length).natAbs '0'
        ++ number.digits, ?_, ?_, ?_, ?_, ?_⟩
      · simp
      · exact ⟨by simp,
          List.append_ne_nil_of_right_ne_nil _ (List.ne_nil_of_length_pos length)⟩
      · exact zeros 1
      · intro c member
        exact (List.mem_append.mp member).elim (zeros _ c) (digit c)
      · rw [← List.append_assoc, List.singleton_append, ← List.replicate_succ,
          Nat.ofDigitChars_append, Nat.ofDigitChars_replicate_zero, Nat.mul_zero, spelled]
        apply power
        rw [List.length_append, List.length_replicate]
        omega
    · rename_i large
      refine ⟨number.digits.take (number.exponent + number.digits.length).natAbs,
        number.digits.drop (number.exponent + number.digits.length).natAbs, ?_, ?_, ?_, ?_, ?_⟩
      · simp
      · constructor <;> apply List.ne_nil_of_length_pos
        · rw [List.length_take]
          omega
        · rw [List.length_drop]
          omega
      · exact fun c member => digit c (List.mem_of_mem_take member)
      · exact fun c member => digit c (List.mem_of_mem_drop member)
      · rw [List.take_append_drop, spelled]
        apply power
        rw [List.length_drop]
        omega

theorem eq_of_positional {left right : Decimal} (same : left.positional = right.positional) :
    left.value = right.value := by
  rcases left.exists_parts with
    ⟨leftWhole, leftFraction, leftText, _, leftDigits, _, leftValue⟩
  rcases right.exists_parts with
    ⟨rightWhole, rightFraction, rightText, _, rightDigits, _, rightValue⟩
  have texts := congrArg String.toList same
  rw [leftText, rightText] at texts
  rcases Text.eq_of_append leftDigits rightDigits (by simp) (by simp) texts with ⟨rfl, rest⟩
  obtain ⟨_, rfl⟩ := List.cons.inj rest
  rw [leftValue] at rightValue
  exact mul_right_cancel₀ (by positivity) rightValue

end Decimal

/-! ## Floating-point literals -/

theorem eq_of_toBits {x y : Float} (same : x.toBits = y.toBits) : x = y := by
  rcases x with ⟨⟨bits, valid⟩⟩
  rcases y with ⟨⟨otherBits, otherValid⟩⟩
  have bitsSame : bits = otherBits := same
  subst bitsSame
  rfl

/-- The mantissa and the exponent of a number tell its bits up to the sign. -/
theorem Binary.eq_of_ofFloat {x y : Float}
    (mantissa : (ofFloat x).mantissa = (ofFloat y).mantissa)
    (exponent : (ofFloat x).exponent = (ofFloat y).exponent) :
    x.toBits.toNat % 2 ^ 63 = y.toBits.toNat % 2 ^ 63 := by
  unfold ofFloat at mantissa exponent
  simp only [Nat.pow_eq] at mantissa exponent
  split at mantissa <;> split at mantissa <;> rename_i left right <;>
    simp only [left, right, if_true, if_false] at mantissa exponent <;> omega

theorem isNaN_of_isFinite {x : Float} (finite : x.isFinite = true) : x.isNaN = false := by
  unfold Float.isFinite Float.Model.isFinite at finite
  unfold Float.isNaN Float.Model.isNaN
  cases unpacked : x.toModel.unpack <;> rw [unpacked] at finite <;> first | rfl | cases finite

theorem floatIsNegative_iff (x : Float) :
    floatIsNegative x = true ↔ 2 ^ 63 ≤ x.toBits.toNat := by
  have bound := x.toBits.toNat_lt
  simp only [floatIsNegative, beq_iff_eq, Nat.pow_eq]
  omega

/-- Finite numbers with one sign and one decimal are the same. -/
theorem eq_of_shortest {x y : Float} (sign : floatIsNegative x = floatIsNegative y)
    (same : (Decimal.ofFloat .up x).value = (Decimal.ofFloat .up y).value) : x = y := by
  have parts := Binary.eq_of_shortest_value (Binary.ofFloat_isDouble x) (Binary.ofFloat_isDouble y)
    same
  have size := Binary.eq_of_ofFloat parts.1 parts.2
  have signs : 2 ^ 63 ≤ x.toBits.toNat ↔ 2 ^ 63 ≤ y.toBits.toNat := by
    rw [← floatIsNegative_iff, ← floatIsNegative_iff, sign]
  have xBound := x.toBits.toNat_lt
  have yBound := y.toBits.toNat_lt
  apply eq_of_toBits
  apply UInt64.toNat_inj.mp
  omega

namespace Literal

/-- The text of a finite number: a sign if it has one, digits, a point and digits. -/
theorem exists_floatText_parts {x : Float} (finite : x.isFinite = true) :
    ∃ whole fraction : List Char,
      (floatText x).toList =
        (if floatIsNegative x then ['-'] else []) ++ (whole ++ '.' :: fraction) ∧
      (Decimal.ofFloat .up x).positional.toList = whole ++ '.' :: fraction ∧
      (whole ≠ [] ∧ fraction ≠ []) ∧ (∀ c ∈ whole, c.isDigit = true) ∧
      (∀ c ∈ fraction, c.isDigit = true) := by
  rcases (Decimal.ofFloat .up x).exists_parts with
    ⟨whole, fraction, text, present, wholeDigits, fractionDigits, _⟩
  refine ⟨whole, fraction, ?_, text, present, wholeDigits, fractionDigits⟩
  unfold floatText
  rw [isNaN_of_isFinite finite, finite, ← text]
  simp only [Bool.false_eq_true, if_false, if_true]
  split <;> simp

theorem ne_minus_of_digits {digits rest others : List Char} (present : digits ≠ [])
    (all : ∀ c ∈ digits, c.isDigit = true) : digits ++ rest ≠ '-' :: others := by
  cases digits with
  | nil => exact absurd rfl present
  | cons c tail =>
      intro same
      have digit := all c List.mem_cons_self
      rw [(List.cons.inj same).1] at digit
      exact absurd digit (by decide)

/-- The text of a finite number tells the number. -/
theorem eq_of_floatText {x y : Float} (xFinite : x.isFinite = true) (yFinite : y.isFinite = true)
    (same : floatText x = floatText y) : x = y := by
  rcases exists_floatText_parts xFinite with ⟨xWhole, xFraction, xText, xSize, xPresent, xDigits, _⟩
  rcases exists_floatText_parts yFinite with ⟨yWhole, yFraction, yText, ySize, yPresent, yDigits, _⟩
  have texts := congrArg String.toList same
  rw [xText, yText] at texts
  have sign : floatIsNegative x = floatIsNegative y := by
    cases xSign : floatIsNegative x <;> cases ySign : floatIsNegative y <;>
      simp only [xSign, ySign, if_true, Bool.false_eq_true, if_false, List.nil_append,
        List.singleton_append] at texts
    · rfl
    · exact absurd texts (ne_minus_of_digits xPresent.1 xDigits)
    · exact absurd texts.symm (ne_minus_of_digits yPresent.1 yDigits)
    · rfl
  rw [sign] at texts
  have sizes := List.append_cancel_left texts
  rw [← xSize, ← ySize] at sizes
  exact eq_of_shortest sign (Decimal.eq_of_positional (String.toList_inj.mp sizes))

end Literal
end GraphQL

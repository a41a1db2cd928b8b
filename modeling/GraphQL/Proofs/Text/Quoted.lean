import GraphQL.Text.Quoted

/-!
# Texts that split in one way

Where a text consists of characters of one kind and then of something else, the end of the first
part is found by looking at the characters. A quoted string is found by scanning to its closing
quote, and resolving its escapes gives back what was quoted.
-/

namespace GraphQL
namespace Text

/-- The longest front of one kind of characters, and what follows it. -/
theorem eq_of_append {test : Char → Bool} {left right leftRest rightRest : List Char}
    (leftAll : ∀ c ∈ left, test c = true) (rightAll : ∀ c ∈ right, test c = true)
    (leftStops : ∀ c ∈ leftRest.head?, test c = false)
    (rightStops : ∀ c ∈ rightRest.head?, test c = false)
    (same : left ++ leftRest = right ++ rightRest) : left = right ∧ leftRest = rightRest := by
  have stops : ∀ {rest : List Char}, (∀ c ∈ rest.head?, test c = false) →
      rest.takeWhile test = [] := by
    intro rest stops
    cases rest with
    | nil => rfl
    | cons c others => rw [List.takeWhile_cons_of_neg (by simp [stops c rfl])]
  have fronts := congrArg (List.takeWhile test) same
  rw [List.takeWhile_append_of_pos leftAll, List.takeWhile_append_of_pos rightAll,
    stops leftStops, stops rightStops, List.append_nil, List.append_nil] at fronts
  subst fronts
  exact ⟨rfl, List.append_cancel_left same⟩

/-! ## Quoted strings -/

/-- A character is written as it is, with a letter after a backslash or by its code point. -/
inductive IsEscape (c : Char) : List Char → Prop where
  | plain (noQuote : c ≠ '"') (noBackslash : c ≠ '\\') (noFeed : c ≠ '\n') : IsEscape c [c]
  | letter (letter : Char) (resolves : resolveLetter letter = c) (short : letter ≠ 'u') :
      IsEscape c ['\\', letter]
  | codePoint (control : isControl c = true) : IsEscape c ('\\' :: 'u' :: fourHexDigits c.toNat)

theorem isEscape (c : Char) : IsEscape c (escape c) := by
  unfold escape
  split
  · rename_i same
    subst same
    exact .letter '"' rfl (by decide)
  · rename_i noQuote
    split
    · rename_i same
      subst same
      exact .letter '\\' rfl (by decide)
    · rename_i noBackslash
      split
      · rename_i same
        subst same
        exact .letter 'n' rfl (by decide)
      · rename_i noFeed
        split
        · rename_i same
          subst same
          exact .letter 'r' rfl (by decide)
        · split
          · rename_i same
            subst same
            exact .letter 't' rfl (by decide)
          · split
            · rename_i control
              exact .codePoint control
            · exact .plain noQuote noBackslash noFeed

theorem upperHexDigit_injective :
    ∀ left < 16, ∀ right < 16, upperHexDigit left = upperHexDigit right → left = right := by
  decide

/-- The four digits of a code point tell it. -/
theorem eq_of_fourHexDigits {left right : Nat} (leftSmall : left < 65536)
    (rightSmall : right < 65536) (same : fourHexDigits left = fourHexDigits right) :
    left = right := by
  simp only [fourHexDigits, List.cons.injEq, and_true] at same
  have first := upperHexDigit_injective _ (by omega) _ (by omega) same.1
  have second := upperHexDigit_injective _ (by omega) _ (by omega) same.2.1
  have third := upperHexDigit_injective _ (by omega) _ (by omega) same.2.2.1
  have fourth := upperHexDigit_injective _ (by omega) _ (by omega) same.2.2.2
  omega

theorem toNat_lt_of_isControl {c : Char} (control : isControl c = true) : c.toNat < 65536 := by
  simp only [isControl, Bool.or_eq_true, decide_eq_true_eq, Bool.and_eq_true] at control
  omega

/-- What is written for one character is not the start of what is written for another one. -/
theorem eq_of_escape_append {left right : Char} {leftRest rightRest : List Char}
    (same : escape left ++ leftRest = escape right ++ rightRest) :
    left = right ∧ leftRest = rightRest := by
  have leftShape := isEscape left
  have rightShape := isEscape right
  revert leftShape rightShape same
  generalize escape left = leftText
  generalize escape right = rightText
  intro same leftShape rightShape
  cases leftShape with
  | plain noQuote noBackslash =>
      cases rightShape with
      | plain => exact List.cons.inj same
      | letter => exact absurd (List.cons.inj same).1 noBackslash
      | codePoint => exact absurd (List.cons.inj same).1 noBackslash
  | letter letter resolves short =>
      cases rightShape with
      | plain noQuote noBackslash => exact absurd (List.cons.inj same).1.symm noBackslash
      | letter other otherResolves =>
          simp only [List.cons_append, List.nil_append, List.cons.injEq, true_and] at same
          exact ⟨by rw [← resolves, ← otherResolves, same.1], same.2⟩
      | codePoint =>
          simp only [List.cons_append, List.nil_append, List.cons.injEq, true_and] at same
          exact absurd same.1 short
  | codePoint control =>
      cases rightShape with
      | plain noQuote noBackslash => exact absurd (List.cons.inj same).1.symm noBackslash
      | letter other otherResolves short =>
          simp only [List.cons_append, List.nil_append, List.cons.injEq, true_and] at same
          exact absurd same.1.symm short
      | codePoint otherControl =>
          simp only [List.cons_append, List.cons.injEq, true_and] at same
          rcases List.append_inj same rfl with ⟨digits, rest⟩
          have codes := eq_of_fourHexDigits (toNat_lt_of_isControl control)
            (toNat_lt_of_isControl otherControl) digits
          exact ⟨Char.toNat_inj.mp codes, rest⟩

theorem exists_cons_escape (c : Char) :
    ∃ first others, escape c = first :: others ∧ first ≠ '"' := by
  have shape := isEscape c
  generalize escape c = text at shape
  cases shape with
  | plain noQuote => exact ⟨_, _, rfl, noQuote⟩
  | letter => exact ⟨_, _, rfl, by decide⟩
  | codePoint => exact ⟨_, _, rfl, by decide⟩

/-- The closing quote ends a quoted string, and what is in it tells what was quoted. -/
theorem eq_of_flatMap_escape {left right leftRest rightRest : List Char}
    (same : left.flatMap escape ++ '"' :: leftRest = right.flatMap escape ++ '"' :: rightRest) :
    left = right ∧ leftRest = rightRest := by
  induction left generalizing right with
  | nil =>
      cases right with
      | nil => exact ⟨rfl, (List.cons.inj same).2⟩
      | cons c others =>
          rcases exists_cons_escape c with ⟨first, tail, shape, noQuote⟩
          rw [List.flatMap_cons, shape] at same
          exact absurd (List.cons.inj same).1.symm noQuote
  | cons c others ih =>
      cases right with
      | nil =>
          rcases exists_cons_escape c with ⟨first, tail, shape, noQuote⟩
          rw [List.flatMap_cons, shape] at same
          exact absurd (List.cons.inj same).1 noQuote
      | cons other tail =>
          rw [List.flatMap_cons, List.flatMap_cons, List.append_assoc, List.append_assoc] at same
          rcases eq_of_escape_append same with ⟨rfl, tails⟩
          rcases ih tails with ⟨rfl, rests⟩
          exact ⟨rfl, rests⟩

/-! ## Resolving what was escaped -/

theorem hexDigit?_upperHexDigit : ∀ value < 16, hexDigit? (upperHexDigit value) = some value := by
  decide

theorem upperHexDigit_ne : ∀ value < 16, upperHexDigit value ≠ '+' ∧ upperHexDigit value ≠ '"' ∧
    upperHexDigit value ≠ '\\' ∧ upperHexDigit value ≠ '\n' := by
  decide

theorem hexNumber?_fourHexDigits {code : Nat} (small : code < 65536) :
    hexNumber? (fourHexDigits code) = some code := by
  have first := hexDigit?_upperHexDigit (code / 4096) (by omega)
  have second := hexDigit?_upperHexDigit (code / 256 % 16) (by omega)
  have third := hexDigit?_upperHexDigit (code / 16 % 16) (by omega)
  have fourth := hexDigit?_upperHexDigit (code % 16) (by omega)
  have noPlus := (upperHexDigit_ne (code / 4096) (by omega)).1
  have unsigned : hexNumber? (fourHexDigits code) = hexDigits? 0 (fourHexDigits code) := by
    unfold hexNumber? fourHexDigits
    split <;> simp_all
  rw [unsigned, fourHexDigits]
  simp only [hexDigits?, first, second, third, fourth, Option.some.injEq]
  omega

theorem resolveCodePoint_of_isControl {c : Char} (control : isControl c = true) :
    resolveCodePoint (fourHexDigits c.toNat) = [c] := by
  have valid : c.toNat.isValidChar := c.valid
  rw [resolveCodePoint, hexNumber?_fourHexDigits (toNat_lt_of_isControl control)]
  simp only [Option.bind_some, codePoint?, if_pos valid, Char.ofNat_toNat]

/-- Reading a quoted string gives what was quoted. -/
theorem unescape_flatMap_escape (chars : List Char) : unescape (chars.flatMap escape) = chars := by
  induction chars with
  | nil => rfl
  | cons c chars ih =>
      have shape := isEscape c
      rw [List.flatMap_cons]
      generalize escape c = text at shape
      cases shape with
      | plain noQuote noBackslash =>
          rw [List.singleton_append, unescape, ih] <;> simp [noBackslash]
      | letter letter resolves short =>
          rw [List.cons_append, List.singleton_append, unescape, resolves, ih] <;> simp_all
      | codePoint control =>
          have resolved := resolveCodePoint_of_isControl control
          rw [fourHexDigits] at resolved ⊢
          simp only [List.cons_append, List.nil_append, unescape, resolved, ih]

end Text
end GraphQL

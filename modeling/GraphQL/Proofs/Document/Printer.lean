import GraphQL.Decimal.Reading
import GraphQL.Proofs.Decimal.Positional
import GraphQL.Proofs.Parsing.Grammar

/-!
# What the text of a literal tells

Two literals that are printed alike are the same apart from their places. The first character tells
what kind of literal it is, every literal ends where a comma, a bracket or a brace follows, and so
the text of a list or an object splits into the texts of its parts in one way.

This needs names that are words, as the tokens of a source are, and no number above all others: that
one is printed like an enum value.
-/

namespace GraphQL

/-! ## Readable literals -/

/-- The text can be the text of a token for a name, or empty. -/
def Name.isWord (name : Name) : Bool :=
  name.text.toList.all Token.isNameContinue

/-- The text is that of a token for a name, but not one for a truth value or null. -/
def Name.isEnumValue (name : Name) : Bool :=
  name.isWord && name.text.toList.head?.any Token.isNameStart
    && !(["true", "false", "null"].contains name.text)

namespace Literal

mutual

/-- A test holds for a literal and for all literals in it. -/
def everywhere (test : Literal → Bool) : Literal → Bool
  | list items span => test (list items span) && itemsEverywhere test items
  | object fields span => test (object fields span) && fieldsEverywhere test fields
  | literal => test literal

def itemsEverywhere (test : Literal → Bool) : List Literal → Bool
  | [] => true
  | item :: rest => everywhere test item && itemsEverywhere test rest

def fieldsEverywhere (test : Literal → Bool) : List (Name × Literal) → Bool
  | [] => true
  | (_, value) :: rest => everywhere test value && fieldsEverywhere test rest

end

/-- The names in a literal are as tokens spell them. -/
def hasTokenNames : Literal → Bool
  | var name => name.isWord
  | enum name => name.isEnumValue
  | object fields _ => fields.all fun field => field.1.isWord
  | _ => true

def isFiniteNumber : Literal → Bool
  | float value _ => value.isFinite
  | _ => true

/-- All names are as tokens spell them and all numbers are finite. -/
def isReadable (literal : Literal) : Bool :=
  literal.everywhere hasTokenNames && literal.everywhere isFiniteNumber

/-- The number is finite or below all others, so that its text is not that of a name. -/
def isSignedNumber : Literal → Bool
  | float value _ => value.isFinite || decide (value = -Decimal.infinity)
  | _ => true

theorem itemsEverywhere_iff {test : Literal → Bool} {items : List Literal} :
    itemsEverywhere test items = true ↔ ∀ item ∈ items, item.everywhere test = true := by
  induction items with
  | nil => simp [itemsEverywhere]
  | cons first rest ih => rw [itemsEverywhere, Bool.and_eq_true, ih, List.forall_mem_cons]

theorem fieldsEverywhere_iff {test : Literal → Bool} {fields : List (Name × Literal)} :
    fieldsEverywhere test fields = true ↔ ∀ field ∈ fields, field.2.everywhere test = true := by
  induction fields with
  | nil => simp [fieldsEverywhere]
  | cons first rest ih => rw [fieldsEverywhere, Bool.and_eq_true, ih, List.forall_mem_cons]

/-- All names are as tokens spell them and no number has the text of a name. -/
def isLegible (literal : Literal) : Bool :=
  literal.everywhere hasTokenNames && literal.everywhere isSignedNumber

mutual

theorem everywhere_mono {test other : Literal → Bool}
    (implies : ∀ literal, test literal = true → other literal = true) (literal : Literal)
    (holds : literal.everywhere test = true) : literal.everywhere other = true := by
  cases literal with
  | list items span =>
      rw [everywhere, Bool.and_eq_true] at holds ⊢
      exact ⟨implies _ holds.1, itemsEverywhere_mono implies items holds.2⟩
  | object fields span =>
      rw [everywhere, Bool.and_eq_true] at holds ⊢
      exact ⟨implies _ holds.1, fieldsEverywhere_mono implies fields holds.2⟩
  | _ => exact implies _ holds

theorem itemsEverywhere_mono {test other : Literal → Bool}
    (implies : ∀ literal, test literal = true → other literal = true) (items : List Literal)
    (holds : itemsEverywhere test items = true) : itemsEverywhere other items = true := by
  cases items with
  | nil => rfl
  | cons first rest =>
      rw [itemsEverywhere, Bool.and_eq_true] at holds ⊢
      exact ⟨everywhere_mono implies first holds.1, itemsEverywhere_mono implies rest holds.2⟩

theorem fieldsEverywhere_mono {test other : Literal → Bool}
    (implies : ∀ literal, test literal = true → other literal = true)
    (fields : List (Name × Literal)) (holds : fieldsEverywhere test fields = true) :
    fieldsEverywhere other fields = true := by
  cases fields with
  | nil => rfl
  | cons first rest =>
      rcases first with ⟨name, value⟩
      rw [fieldsEverywhere, Bool.and_eq_true] at holds ⊢
      exact ⟨everywhere_mono implies value holds.1, fieldsEverywhere_mono implies rest holds.2⟩

end

theorem isLegible_of_isReadable {literal : Literal} (readable : literal.isReadable = true) :
    literal.isLegible = true := by
  rw [isReadable, Bool.and_eq_true] at readable
  rw [isLegible, Bool.and_eq_true]
  refine ⟨readable.1, everywhere_mono (fun literal finite => ?_) literal readable.2⟩
  cases literal with
  | float value span => exact Bool.or_eq_true_iff.mpr (.inl finite)
  | _ => rfl

end Literal

/-! ## First characters -/

namespace Literal

/-- The kinds of literals that the first character of their text tells apart. -/
inductive Opening where
  | dollar
  | quote
  | bracket
  | brace
  | numeral
  | word
  deriving DecidableEq

def Opening.ofChar (c : Char) : Opening :=
  if c = '$' then dollar
  else if c = '"' then quote
  else if c = '[' then bracket
  else if c = '\x7b' then brace
  else if c = '-' ∨ c.isDigit then numeral
  else word

def opening : Literal → Opening
  | var _ => .dollar
  | string .. => .quote
  | list .. => .bracket
  | object .. => .brace
  | int .. => .numeral
  | float .. => .numeral
  | boolean .. => .word
  | null _ => .word
  | enum _ => .word

/-- A character of a number. -/
def isNumeral (c : Char) : Bool :=
  c.isDigit || ['-', '.', 'i', 'n', 'f'].contains c

/-- What ends the text of a literal: nothing more, or what comes after an item. -/
def Ends (rest : List Char) : Prop :=
  ∀ c ∈ rest.head?, c = ',' ∨ c = ']' ∨ c = '\x7d'

theorem Ends.cons {c : Char} {rest : List Char} (ends : c = ',' ∨ c = ']' ∨ c = '\x7d') :
    Ends (c :: rest) := by
  intro other member
  cases member
  exact ends

theorem Ends.isNameContinue {rest : List Char} (ends : Ends rest) :
    ∀ c ∈ rest.head?, Token.isNameContinue c = false := by
  intro c member
  rcases ends c member with rfl | rfl | rfl <;> decide

theorem Ends.isNumeral {rest : List Char} (ends : Ends rest) :
    ∀ c ∈ rest.head?, isNumeral c = false := by
  intro c member
  rcases ends c member with rfl | rfl | rfl <;> decide

/-! ## Numbers -/

theorem toList_repr_eq (value : Int) :
    (toString value).toList =
      (if 0 ≤ value then [] else ['-']) ++ Nat.toDigits 10 value.natAbs := by
  rw [Int.toString_eq_repr, Int.repr_eq_if]
  split
  · rename_i positive
    have size : value.toNat = value.natAbs := by omega
    rw [Nat.toList_repr, List.nil_append, size]
  · rename_i negative
    have size : (-value).toNat = value.natAbs := by omega
    rw [String.toList_append, Nat.toList_repr, size]
    rfl

theorem isDigit_of_mem_toDigits {value : Nat} {c : Char} (member : c ∈ Nat.toDigits 10 value) :
    c.isDigit = true :=
  Nat.isDigit_of_mem_toDigits (by norm_num) (by norm_num) member

theorem toString_injective {left right : Int} (same : toString left = toString right) :
    left = right := by
  have texts := congrArg String.toList same
  rw [toList_repr_eq, toList_repr_eq] at texts
  have unsigned : ∀ {first second : Int}, Nat.toDigits 10 first.natAbs =
      Nat.toDigits 10 second.natAbs → first.natAbs = second.natAbs := by
    intro first second digits
    rw [← Nat.ofDigitChars_ten_toDigits (n := first.natAbs), digits,
      Nat.ofDigitChars_ten_toDigits]
  have signed : ∀ {first second : Nat}, Nat.toDigits 10 first ≠ '-' :: Nat.toDigits 10 second := by
    intro first second digits
    have minus : '-' ∈ Nat.toDigits 10 first := digits ▸ List.mem_cons_self
    exact absurd (isDigit_of_mem_toDigits minus) (by decide)
  split at texts <;> split at texts
  · have size := unsigned texts
    omega
  · exact absurd texts signed
  · exact absurd texts.symm signed
  · have size := unsigned (List.cons.inj texts).2
    omega

/-- Digits, a sign and a point are characters of a number. -/
theorem isNumeral_of_digit {c : Char} (kind : c = '-' ∨ c = '.' ∨ c.isDigit = true) :
    isNumeral c = true ∧ c ≠ 'i' := by
  refine ⟨?_, ?_⟩
  · rcases kind with rfl | rfl | digit
    · rfl
    · rfl
    · rw [isNumeral, digit, Bool.true_or]
  · rintro rfl
    revert kind
    decide

/-- What kind of number a text shows: whole ones have no point, others have one, and a number below
all others has a letter. -/
inductive NumberText (text : String) : Literal → Prop where
  | whole {value : Int} {span : Span} (isText : text = toString value)
      (noPoint : '.' ∉ text.toList) (noLetter : 'i' ∉ text.toList) :
      NumberText text (int value span)
  | finite {value : Float} {span : Span} (isText : text = floatText value)
      (isFinite : value.isFinite = true) (point : '.' ∈ text.toList)
      (noLetter : 'i' ∉ text.toList) : NumberText text (float value span)
  | least {span : Span} (letter : 'i' ∈ text.toList) :
      NumberText text (float (-Decimal.infinity) span)

theorem floatText_least : floatText (-Decimal.infinity) = "-inf" := by
  decide +kernel

theorem numeral_text {literal : Literal} (numeral : literal.opening = .numeral)
    (legible : literal.isLegible = true) :
    (∀ c ∈ literal.print.toList, isNumeral c = true) ∧ NumberText literal.print literal := by
  cases literal with
  | int value span =>
      have chars : ∀ c ∈ (int value span).print.toList, c = '-' ∨ c.isDigit = true := by
        intro c member
        rw [print, toList_repr_eq, List.mem_append] at member
        rcases member with sign | digit
        · split at sign
          · cases sign
          · exact .inl (List.mem_singleton.mp sign)
        · exact .inr (isDigit_of_mem_toDigits digit)
      have kinds : ∀ c ∈ (int value span).print.toList, c = '-' ∨ c = '.' ∨ c.isDigit = true :=
        fun c member => (chars c member).imp_right .inr
      refine ⟨fun c member => (isNumeral_of_digit (kinds c member)).1, .whole ?_ ?_ ?_⟩
      · rw [print]
      · exact fun point => absurd (chars '.' point) (by decide)
      · exact fun letter => (isNumeral_of_digit (kinds 'i' letter)).2 rfl
  | float value span =>
      have signed : value.isFinite = true ∨ value = -Decimal.infinity := by
        simpa [isLegible, everywhere, hasTokenNames, isSignedNumber] using legible
      rcases signed with finite | rfl
      · rcases exists_floatText_parts finite with
          ⟨whole, fraction, text, _, _, wholeDigits, fractionDigits⟩
        have kinds : ∀ c ∈ (float value span).print.toList,
            c = '-' ∨ c = '.' ∨ c.isDigit = true := by
          intro c member
          rw [print, text] at member
          simp only [List.mem_append, List.mem_cons] at member
          rcases member with sign | whole | rfl | fraction
          · split at sign
            · exact .inl (List.mem_singleton.mp sign)
            · cases sign
          · exact .inr (.inr (wholeDigits c whole))
          · exact .inr (.inl rfl)
          · exact .inr (.inr (fractionDigits c fraction))
        refine ⟨fun c member => (isNumeral_of_digit (kinds c member)).1, .finite ?_ finite ?_ ?_⟩
        · rw [print]
        · rw [print, text]
          simp
        · exact fun letter => (isNumeral_of_digit (kinds 'i' letter)).2 rfl
      · have text : (float (-Decimal.infinity) span).print = "-inf" := floatText_least
        rw [text]
        exact ⟨List.all_eq_true.mp (by decide), .least (by decide)⟩
  | _ => cases numeral

/-- The text of a number tells the number. -/
theorem NumberText.unique {text : String} {left right : Literal} (leftText : NumberText text left)
    (rightText : NumberText text right) : left.unplaced = right.unplaced := by
  cases leftText with
  | whole isText noPoint noLetter =>
      cases rightText with
      | whole same =>
          rw [isText] at same
          rw [unplaced, unplaced, toString_injective same]
      | finite _ _ point => exact absurd point noPoint
      | least letter => exact absurd letter noLetter
  | finite isText isFinite point noLetter =>
      cases rightText with
      | whole _ noPoint => exact absurd point noPoint
      | finite same otherFinite =>
          rw [isText] at same
          rw [unplaced, unplaced, eq_of_floatText isFinite otherFinite same]
      | least letter => exact absurd letter noLetter
  | least letter =>
      cases rightText with
      | whole _ _ noLetter => exact absurd letter noLetter
      | finite _ _ _ noLetter => exact absurd letter noLetter
      | least => rfl

theorem eq_of_numeral {left right : Literal} (leftNumeral : left.opening = .numeral)
    (rightNumeral : right.opening = .numeral) (leftLegible : left.isLegible = true)
    (rightLegible : right.isLegible = true) {leftRest rightRest : List Char}
    (leftEnds : Ends leftRest) (rightEnds : Ends rightRest)
    (same : left.print.toList ++ leftRest = right.print.toList ++ rightRest) :
    left.unplaced = right.unplaced ∧ leftRest = rightRest := by
  rcases numeral_text leftNumeral leftLegible with ⟨leftChars, leftText⟩
  rcases numeral_text rightNumeral rightLegible with ⟨rightChars, rightText⟩
  rcases Text.eq_of_append leftChars rightChars leftEnds.isNumeral rightEnds.isNumeral same with
    ⟨texts, rests⟩
  rw [String.toList_inj.mp texts] at leftText
  exact ⟨leftText.unique rightText, rests⟩

/-! ## Words -/

/-- What a word stands for. -/
def wordLiteral (text : String) : Literal :=
  if text = "true" then .boolean true ⟨0, 0⟩
  else if text = "false" then .boolean false ⟨0, 0⟩
  else if text = "null" then .null ⟨0, 0⟩
  else .enum ⟨text, ⟨0, 0⟩⟩

theorem word_text {literal : Literal} (word : literal.opening = .word)
    (legible : literal.isLegible = true) :
    (∀ c ∈ literal.print.toList, Token.isNameContinue c = true) ∧
      literal.unplaced = wordLiteral literal.print := by
  cases literal with
  | boolean value span =>
      cases value
      · refine ⟨?_, by simp [unplaced, print, wordLiteral]⟩
        rw [print]
        exact List.all_eq_true.mp (by decide)
      · refine ⟨?_, by simp [unplaced, print, wordLiteral]⟩
        rw [print]
        exact List.all_eq_true.mp (by decide)
  | null span =>
      refine ⟨?_, by simp [unplaced, print, wordLiteral]⟩
      rw [print]
      exact List.all_eq_true.mp (by decide)
  | enum name =>
      have isEnumValue : name.isEnumValue = true := by
        simpa [isLegible, everywhere, hasTokenNames, isSignedNumber] using legible
      simp only [Name.isEnumValue, Bool.and_eq_true, Bool.not_eq_true', ← Bool.not_eq_true,
        List.contains_iff_mem, List.mem_cons, List.not_mem_nil, or_false, not_or] at isEnumValue
      rcases isEnumValue with ⟨⟨chars, _⟩, notTrue, notFalse, notNull⟩
      rw [print]
      refine ⟨List.all_eq_true.mp chars, ?_⟩
      rw [wordLiteral, if_neg notTrue, if_neg notFalse, if_neg notNull]
      rfl
  | _ => cases word

theorem eq_of_word {left right : Literal} (leftWord : left.opening = .word)
    (rightWord : right.opening = .word) (leftLegible : left.isLegible = true)
    (rightLegible : right.isLegible = true) {leftRest rightRest : List Char}
    (leftEnds : Ends leftRest) (rightEnds : Ends rightRest)
    (same : left.print.toList ++ leftRest = right.print.toList ++ rightRest) :
    left.unplaced = right.unplaced ∧ leftRest = rightRest := by
  rcases word_text leftWord leftLegible with ⟨leftChars, leftValue⟩
  rcases word_text rightWord rightLegible with ⟨rightChars, rightValue⟩
  rcases Text.eq_of_append leftChars rightChars leftEnds.isNameContinue rightEnds.isNameContinue
    same with ⟨texts, rests⟩
  rw [leftValue, rightValue, String.toList_inj.mp texts]
  exact ⟨rfl, rests⟩

/-! ## Lists and objects -/

/-- The texts after the first one in a list. -/
def further (texts : List String) : List Char :=
  texts.flatMap fun text => ',' :: ' ' :: text.toList

theorem toList_intercalate_cons (first : String) (others : List String) :
    (", ".intercalate (first :: others)).toList = first.toList ++ further others := by
  induction others generalizing first with
  | nil => simp [further]
  | cons second rest ih =>
      rw [String.intercalate_cons_cons, String.toList_append, String.toList_append, ih]
      simp [further]

theorem Opening.ofChar_numeral {c : Char} (numeral : c = '-' ∨ c.isDigit = true) :
    ofChar c = .numeral ∧ c ≠ ']' ∧ c ≠ '\x7d' := by
  have others : c ≠ '$' ∧ c ≠ '"' ∧ c ≠ '[' ∧ c ≠ '\x7b' ∧ c ≠ ']' ∧ c ≠ '\x7d' := by
    refine ⟨?_, ?_, ?_, ?_, ?_, ?_⟩ <;> rintro rfl <;> revert numeral <;> decide
  rcases others with ⟨dollar, quote, bracket, brace, closes⟩
  refine ⟨?_, closes⟩
  rw [ofChar, if_neg dollar, if_neg quote, if_neg bracket, if_neg brace, if_pos numeral]

theorem Opening.ofChar_word {c : Char} (starts : Token.isNameStart c = true) :
    ofChar c = .word ∧ c ≠ ']' ∧ c ≠ '\x7d' := by
  have others : c ≠ '$' ∧ c ≠ '"' ∧ c ≠ '[' ∧ c ≠ '\x7b' ∧ c ≠ '-' ∧ c ≠ ']' ∧ c ≠ '\x7d' := by
    refine ⟨?_, ?_, ?_, ?_, ?_, ?_, ?_⟩ <;> rintro rfl <;> revert starts <;> decide
  have noDigit : ¬c.isDigit = true := by
    intro digit
    have high := of_decide_eq_true ((Bool.and_eq_true _ _).mp digit).2
    rcases (Bool.or_eq_true _ _).mp starts with letter | underscore
    · rcases (Bool.or_eq_true _ _).mp letter with upper | lower
      · exact absurd (UInt32.le_trans (of_decide_eq_true upper).1 high) (by decide)
      · have above := of_decide_eq_true ((Bool.and_eq_true _ _).mp lower).1
        exact absurd (UInt32.le_trans above high) (by decide)
    · rw [eq_of_beq underscore] at high
      exact absurd high (by decide)
  rcases others with ⟨dollar, quote, bracket, brace, minus, closes⟩
  refine ⟨?_, closes⟩
  rw [ofChar, if_neg dollar, if_neg quote, if_neg bracket, if_neg brace,
    if_neg (not_or.mpr ⟨minus, noDigit⟩)]

/-- The first character of a literal tells its kind and does not close a list or an object. -/
theorem exists_opening {literal : Literal} (legible : literal.isLegible = true) :
    ∃ first others, literal.print.toList = first :: others ∧
      Opening.ofChar first = literal.opening ∧ first ≠ ']' ∧ first ≠ '\x7d' := by
  cases literal with
  | var name => exact ⟨'$', name.text.toList, by simp [print], rfl, by decide, by decide⟩
  | int value span =>
      have text := toList_repr_eq value
      split at text
      · cases digits : Nat.toDigits 10 value.natAbs with
        | nil => exact absurd digits Nat.toDigits_ne_nil
        | cons first others =>
            rw [digits] at text
            have digit : first.isDigit = true :=
              isDigit_of_mem_toDigits (digits ▸ List.mem_cons_self)
            exact ⟨first, others, by rw [print, text]; rfl, Opening.ofChar_numeral (.inr digit)⟩
      · exact ⟨'-', _, by rw [print, text]; rfl, Opening.ofChar_numeral (.inl rfl)⟩
  | float value span =>
      have signed : value.isFinite = true ∨ value = -Decimal.infinity := by
        simpa [isLegible, everywhere, hasTokenNames, isSignedNumber] using legible
      rcases signed with finite | rfl
      · rcases exists_floatText_parts finite with
          ⟨whole, fraction, text, _, ⟨present, _⟩, digits, _⟩
        split at text
        · exact ⟨'-', _, by rw [print, text]; rfl, Opening.ofChar_numeral (.inl rfl)⟩
        · cases whole with
          | nil => exact absurd rfl present
          | cons first others =>
              exact ⟨first, _, by rw [print, text]; rfl,
                Opening.ofChar_numeral (.inr (digits first List.mem_cons_self))⟩
      · exact ⟨'-', ['i', 'n', 'f'], by rw [print, floatText_least]; rfl,
          Opening.ofChar_numeral (.inl rfl)⟩
  | string value span =>
      exact ⟨'"', _, by rw [print, Text.quote, String.toList_ofList]; rfl, rfl, by decide,
        by decide⟩
  | boolean value span =>
      cases value
      · exact ⟨'f', ['a', 'l', 's', 'e'], by simp [print], rfl, by decide, by decide⟩
      · exact ⟨'t', ['r', 'u', 'e'], by simp [print], rfl, by decide, by decide⟩
  | null span =>
      exact ⟨'n', ['u', 'l', 'l'], by simp [print], rfl, by decide, by decide⟩
  | enum name =>
      have isEnumValue : name.isEnumValue = true := by
        simpa [isLegible, everywhere, hasTokenNames, isSignedNumber] using legible
      simp only [Name.isEnumValue, Bool.and_eq_true] at isEnumValue
      rcases (Option.any_eq_true _ _).mp isEnumValue.1.2 with ⟨first, isFirst, starts⟩
      rcases List.head?_eq_some_iff.mp isFirst with ⟨others, text⟩
      exact ⟨first, others, by rw [print, text], Opening.ofChar_word starts⟩
  | list items span =>
      exact ⟨'[', _, by rw [print, String.toList_append, String.toList_append]; rfl, rfl,
        by decide, by decide⟩
  | object fields span =>
      exact ⟨'\x7b', _, by rw [print, String.toList_append, String.toList_append]; rfl, rfl,
        by decide, by decide⟩

/-- Texts that go on alike start with literals of one kind. -/
theorem opening_eq {left right : Literal} (leftLegible : left.isLegible = true)
    (rightLegible : right.isLegible = true) {leftRest rightRest : List Char}
    (same : left.print.toList ++ leftRest = right.print.toList ++ rightRest) :
    left.opening = right.opening := by
  rcases exists_opening leftLegible with ⟨leftFirst, leftOthers, leftText, leftOpening, _⟩
  rcases exists_opening rightLegible with ⟨rightFirst, rightOthers, rightText, rightOpening, _⟩
  rw [leftText, rightText] at same
  rw [← leftOpening, ← rightOpening, (List.cons.inj same).1]

theorem isLegible_list {items : List Literal} {span : Span} :
    (list items span).isLegible = true ↔ ∀ item ∈ items, item.isLegible = true := by
  simp only [isLegible, everywhere, hasTokenNames, isSignedNumber, Bool.true_and,
    Bool.and_eq_true, itemsEverywhere_iff]
  exact forall₂_and.symm

theorem isLegible_object {fields : List (Name × Literal)} {span : Span} :
    (object fields span).isLegible = true ↔
      ∀ field ∈ fields, field.1.isWord = true ∧ field.2.isLegible = true := by
  simp only [isLegible, everywhere, hasTokenNames, isSignedNumber, Bool.true_and,
    Bool.and_eq_true, fieldsEverywhere_iff, List.all_eq_true, forall₂_and, and_assoc]

theorem ends_further (texts : List String) {close : Char} (closes : close = ']' ∨ close = '\x7d')
    (rest : List Char) : Ends (further texts ++ close :: rest) := by
  cases texts with
  | nil => exact .cons (.inr closes)
  | cons text others => exact .cons (.inl rfl)

theorem printField_append (field : Name × Literal) (rest : List Char) :
    (field.1.text ++ ": " ++ field.2.print).toList ++ rest =
      field.1.text.toList ++ ':' :: ' ' :: (field.2.print.toList ++ rest) := by
  simp

theorem further_append (text : String) (others : List String) (rest : List Char) :
    further (text :: others) ++ rest = ',' :: ' ' :: (text.toList ++ (further others ++ rest)) := by
  simp [further]

/-- A closing character does not start any of the texts. -/
def Opens (close : Char) (texts : List String) : Prop :=
  ∀ text ∈ texts, ∀ others rest : List Char, close :: others ≠ text.toList ++ rest

/-- Lists of texts that go on alike go on alike when a separator stands before each text. -/
theorem further_of_intercalate {close : Char} {left right : List String}
    (leftOpens : Opens close left) (rightOpens : Opens close right)
    {leftRest rightRest : List Char}
    (same : (", ".intercalate left).toList ++ close :: leftRest =
      (", ".intercalate right).toList ++ close :: rightRest) :
    further left ++ close :: leftRest = further right ++ close :: rightRest := by
  cases left with
  | nil =>
      cases right with
      | nil => simpa [further] using same
      | cons second others =>
          rw [toList_intercalate_cons, List.append_assoc] at same
          exact absurd same (rightOpens second List.mem_cons_self _ _)
  | cons first rest =>
      cases right with
      | nil =>
          rw [toList_intercalate_cons, List.append_assoc] at same
          exact absurd same.symm (leftOpens first List.mem_cons_self _ _)
      | cons second others =>
          rw [toList_intercalate_cons, toList_intercalate_cons, List.append_assoc,
            List.append_assoc] at same
          rw [further_append, further_append, same]

theorem opens_printItems {items : List Literal}
    (legible : ∀ item ∈ items, item.isLegible = true) : Opens ']' (printItems items) := by
  induction items with
  | nil =>
      intro text member
      cases member
  | cons first rest ih =>
      intro text member others tail
      rw [List.forall_mem_cons] at legible
      rw [printItems, List.mem_cons] at member
      rcases member with rfl | member
      · rcases exists_opening legible.1 with ⟨c, chars, shape, _, opens, _⟩
        rw [shape]
        exact fun same => opens (List.cons.inj same).1.symm
      · exact ih legible.2 text member others tail

theorem ne_close_of_field {name : Name} (word : name.isWord = true) {rest others : List Char} :
    '\x7d' :: others ≠ name.text.toList ++ ':' :: rest := by
  intro same
  cases chars : name.text.toList with
  | nil =>
      rw [chars] at same
      exact absurd (List.cons.inj same).1 (by decide)
  | cons c tail =>
      have continues := List.all_eq_true.mp word c (chars ▸ List.mem_cons_self)
      rw [chars] at same
      rw [← (List.cons.inj same).1] at continues
      exact absurd continues (by decide)

theorem opens_printFields {fields : List (Name × Literal)}
    (legible : ∀ field ∈ fields, field.1.isWord = true ∧ field.2.isLegible = true) :
    Opens '\x7d' (printFields fields) := by
  induction fields with
  | nil =>
      intro text member
      cases member
  | cons first rest ih =>
      intro text member others tail
      rw [List.forall_mem_cons] at legible
      rw [printFields, List.mem_cons] at member
      rcases member with rfl | member
      · rw [printField_append first]
        exact ne_close_of_field legible.1.1
      · exact ih legible.2 text member others tail

theorem eq_of_field_name {left right : Name} (leftWord : left.isWord = true)
    (rightWord : right.isWord = true) {leftRest rightRest : List Char}
    (same : left.text.toList ++ ':' :: ' ' :: leftRest =
      right.text.toList ++ ':' :: ' ' :: rightRest) :
    left.text = right.text ∧ leftRest = rightRest := by
  have stops : ∀ rest : List Char, ∀ c ∈ (':' :: rest).head?, Token.isNameContinue c = false := by
    intro rest c member
    cases member
    decide
  rcases Text.eq_of_append (List.all_eq_true.mp leftWord) (List.all_eq_true.mp rightWord)
    (stops _) (stops _) same with ⟨names, rests⟩
  simp only [List.cons.injEq, true_and] at rests
  exact ⟨String.toList_inj.mp names, rests⟩

mutual

/-- Literals that are printed alike are the same apart from places, and so is what follows them. -/
theorem eq_of_print_append (left right : Literal) (leftLegible : left.isLegible = true)
    (rightLegible : right.isLegible = true) {leftRest rightRest : List Char}
    (leftEnds : Ends leftRest) (rightEnds : Ends rightRest)
    (same : left.print.toList ++ leftRest = right.print.toList ++ rightRest) :
    left.unplaced = right.unplaced ∧ leftRest = rightRest := by
  have opening := opening_eq leftLegible rightLegible same
  match left with
  | int .. => exact eq_of_numeral rfl opening.symm leftLegible rightLegible leftEnds rightEnds same
  | float .. =>
      exact eq_of_numeral rfl opening.symm leftLegible rightLegible leftEnds rightEnds same
  | boolean .. =>
      exact eq_of_word rfl opening.symm leftLegible rightLegible leftEnds rightEnds same
  | null _ => exact eq_of_word rfl opening.symm leftLegible rightLegible leftEnds rightEnds same
  | enum _ => exact eq_of_word rfl opening.symm leftLegible rightLegible leftEnds rightEnds same
  | var name =>
      cases right with
      | var other =>
          have leftWord : name.isWord = true := by
            simpa [isLegible, everywhere, hasTokenNames, isSignedNumber] using leftLegible
          have rightWord : other.isWord = true := by
            simpa [isLegible, everywhere, hasTokenNames, isSignedNumber] using rightLegible
          simp only [print, String.toList_append, List.append_assoc] at same
          rcases Text.eq_of_append (List.all_eq_true.mp leftWord) (List.all_eq_true.mp rightWord)
            leftEnds.isNameContinue rightEnds.isNameContinue (List.append_cancel_left same) with
            ⟨names, rests⟩
          exact ⟨by rw [unplaced, unplaced, Name.unplaced, Name.unplaced,
            String.toList_inj.mp names], rests⟩
      | _ => cases opening
  | string value span =>
      cases right with
      | string other otherSpan =>
          simp only [print, Text.quote, String.toList_ofList, List.cons_append, List.append_assoc,
            List.cons.injEq, true_and, List.nil_append] at same
          rcases Text.eq_of_flatMap_escape same with ⟨values, rests⟩
          exact ⟨by rw [unplaced, unplaced, String.toList_inj.mp values], rests⟩
      | _ => cases opening
  | list items span =>
      cases right with
      | list others otherSpan =>
          rw [isLegible_list] at leftLegible rightLegible
          simp only [print, String.toList_append, List.append_assoc] at same
          have contents := further_of_intercalate (opens_printItems leftLegible)
            (opens_printItems rightLegible) (List.append_cancel_left same)
          rcases eq_of_further_items items others leftLegible rightLegible contents with
            ⟨values, rests⟩
          exact ⟨by rw [unplaced, unplaced, values], rests⟩
      | _ => cases opening
  | object fields span =>
      cases right with
      | object others otherSpan =>
          rw [isLegible_object] at leftLegible rightLegible
          simp only [print, String.toList_append, List.append_assoc] at same
          have contents := further_of_intercalate (opens_printFields leftLegible)
            (opens_printFields rightLegible) (List.append_cancel_left same)
          rcases eq_of_further_fields fields others leftLegible rightLegible contents with
            ⟨values, rests⟩
          exact ⟨by rw [unplaced, unplaced, values], rests⟩
      | _ => cases opening

theorem eq_of_further_items (left right : List Literal)
    (leftLegible : ∀ item ∈ left, item.isLegible = true)
    (rightLegible : ∀ item ∈ right, item.isLegible = true) {leftRest rightRest : List Char}
    (same : further (printItems left) ++ ']' :: leftRest =
      further (printItems right) ++ ']' :: rightRest) :
    itemsUnplaced left = itemsUnplaced right ∧ leftRest = rightRest := by
  match left with
  | [] =>
      cases right with
      | nil => exact ⟨rfl, by simpa [printItems, further] using same⟩
      | cons second others => exact absurd same (by simp [printItems, further])
  | first :: rest =>
      cases right with
      | nil => exact absurd same (by simp [printItems, further])
      | cons second others =>
          rw [List.forall_mem_cons] at leftLegible rightLegible
          simp only [printItems, further_append, List.cons.injEq, true_and] at same
          rcases eq_of_print_append first second leftLegible.1 rightLegible.1
            (ends_further _ (.inl rfl) _) (ends_further _ (.inl rfl) _) same with ⟨value, tails⟩
          rcases eq_of_further_items rest others leftLegible.2 rightLegible.2 tails with
            ⟨values, rests⟩
          exact ⟨by rw [itemsUnplaced, itemsUnplaced, value, values], rests⟩

theorem eq_of_further_fields (left right : List (Name × Literal))
    (leftLegible : ∀ field ∈ left, field.1.isWord = true ∧ field.2.isLegible = true)
    (rightLegible : ∀ field ∈ right, field.1.isWord = true ∧ field.2.isLegible = true)
    {leftRest rightRest : List Char}
    (same : further (printFields left) ++ '\x7d' :: leftRest =
      further (printFields right) ++ '\x7d' :: rightRest) :
    fieldsUnplaced left = fieldsUnplaced right ∧ leftRest = rightRest := by
  match left with
  | [] =>
      cases right with
      | nil => exact ⟨rfl, by simpa [printFields, further] using same⟩
      | cons second others => exact absurd same (by simp [printFields, further])
  | (name, value) :: rest =>
      cases right with
      | nil => exact absurd same (by simp [printFields, further])
      | cons second others =>
          rcases second with ⟨otherName, otherValue⟩
          rw [List.forall_mem_cons] at leftLegible rightLegible
          simp only [printFields, further_append, List.cons.injEq, true_and] at same
          rw [printField_append (name, value), printField_append (otherName, otherValue)] at same
          rcases eq_of_field_name leftLegible.1.1 rightLegible.1.1 same with ⟨names, texts⟩
          rcases eq_of_print_append value otherValue leftLegible.1.2 rightLegible.1.2
            (ends_further _ (.inr rfl) _) (ends_further _ (.inr rfl) _) texts with
            ⟨values, tails⟩
          rcases eq_of_further_fields rest others leftLegible.2 rightLegible.2 tails with
            ⟨more, rests⟩
          exact ⟨by rw [fieldsUnplaced, fieldsUnplaced, Name.unplaced, Name.unplaced, names, values,
            more], rests⟩

end

end Literal

end GraphQL

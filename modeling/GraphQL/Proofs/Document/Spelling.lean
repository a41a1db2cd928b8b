import GraphQL.Proofs.Decimal.Nearest
import GraphQL.Proofs.Document.Printer
import GraphQL.Proofs.OrderedMap
import GraphQL.Proofs.Parsing.Spelling
import GraphQL.Schema.Definition
import GraphQL.Schema.Printer

/-!
# Texts that spell types and values

The text of a type and the literal of a value are scanned into tokens that spell them: what the
tokens spell is the type or the value again. For a number this rests on the decimal reader, which
reads both decimal texts of a finite number as the number.
-/

namespace GraphQL

open Grammar Token

/-! ## Types -/

namespace TypeRef

/-- The type can be written: its name is a word, and no exclamation mark follows another one. -/
def IsWritable : TypeRef → Prop
  | named name => IsWordText name
  | list item => item.IsWritable
  | nonNull inner => inner.isNonNull = false ∧ inner.IsWritable

theorem lexes_text {type : TypeRef} (writable : type.IsWritable) :
    Lexes Breaks type.text fun tokens => ∃ expression : TypeExpression,
      expression.toTypeRef = type ∧ SpellsType tokens expression ∧
        (type.isNonNull = false → SpellsPlainType tokens expression) := by
  induction type with
  | named name =>
      refine (lexes_name writable ⟨0, 0⟩).weaken ?_
      rintro _ ⟨token, rfl, isName⟩
      exact ⟨_, rfl, .nullable (.named isName), fun _ => .named isName⟩
  | list item ih =>
      have inside := (lexes_punctuator .openBracket).followedBy (ih writable)
      refine ((inside.append (lexes_punctuator .closeBracket) fun rest _ =>
        breaks_text rfl rest).mono fun _ _ => trivial).weaken ?_
      rintro _ ⟨_, _, rfl, ⟨_, used, rfl, ⟨first, rfl, opens⟩, expression, same, spelled, _⟩,
        last, rfl, closes⟩
      have plain : SpellsPlainType ([first] ++ used ++ [last]) (.list expression ⟨0, 0⟩) := by
        rw [List.append_assoc]
        exact .list opens spelled closes
      exact ⟨.list expression ⟨0, 0⟩, congrArg TypeRef.list same, .nullable plain, fun _ => plain⟩
  | nonNull inner ih =>
      refine (((ih writable.2).append (lexes_punctuator .bang) fun rest _ =>
        breaks_text rfl rest).mono fun _ _ => trivial).weaken ?_
      rintro _ ⟨used, _, rfl, ⟨expression, same, _, plain⟩, last, rfl, isBang⟩
      exact ⟨.nonNull expression ⟨0, 0⟩, congrArg TypeRef.nonNull same,
        .nonNull (plain writable.1) isBang, fun nullable => by cases nullable⟩

end TypeRef

/-! ## Numbers -/

namespace Decimal

theorem lexes_floatText {number : Float} (finite : number.isFinite = true) :
    Lexes Breaks (Literal.floatText number) (IsSingle .float (Literal.floatText number)) := by
  rcases Literal.exists_floatText_parts finite with
    ⟨whole, fraction, text, _, ⟨present, fractional⟩, digits, fractionDigits⟩
  exact lexes_positional text (by split <;> simp) present digits fractional fractionDigits

theorem exists_scientific_parts (number : Decimal) :
    ∃ (whole point exponent : List Char) (sign : Char),
      number.scientific.toList = whole ++ (point ++ 'e' :: sign :: exponent) ∧ whole ≠ [] ∧
      (∀ c ∈ whole, c.isDigit = true) ∧
      (point = [] ∨ ∃ fraction, point = '.' :: fraction ∧ fraction ≠ [] ∧
        ∀ c ∈ fraction, c.isDigit = true) ∧
      (sign = '+' ∨ sign = '-') ∧ exponent ≠ [] ∧ ∀ c ∈ exponent, c.isDigit = true := by
  have digit : ∀ c ∈ number.digits, c.isDigit = true := fun c member =>
    Nat.isDigit_of_mem_toDigits (by norm_num) (by norm_num) member
  have length : 0 < number.digits.length := Nat.length_toDigits_pos
  refine ⟨number.digits.take 1,
    if (number.digits.drop 1).isEmpty then [] else '.' :: number.digits.drop 1,
    Nat.toDigits 10 number.scale.natAbs, if number.scale < 0 then '-' else '+', ?_, ?_, ?_, ?_, ?_,
    ?_, ?_⟩
  · simp [scientific]
  · apply List.ne_nil_of_length_pos
    rw [List.length_take]
    omega
  · exact fun c member => digit c (List.mem_of_mem_take member)
  · split
    · exact .inl rfl
    · rename_i nonempty
      refine .inr ⟨_, rfl, ?_, fun c member => digit c (List.mem_of_mem_drop member)⟩
      simpa using nonempty
  · split
    · exact .inr rfl
    · exact .inl rfl
  · exact List.ne_nil_of_length_pos Nat.length_toDigits_pos
  · exact fun c member => Nat.isDigit_of_mem_toDigits (by norm_num) (by norm_num) member

theorem lexes_jsonFloatText {number : Float} (finite : number.isFinite = true) :
    Lexes Breaks (Json.floatText number) (IsSingle .float (Json.floatText number)) := by
  obtain ⟨size, isSize, text⟩ : ∃ size,
      (size = (ofFloat .toEven number).positional ∨ size = (ofFloat .toEven number).scientific) ∧
      Json.floatText number = if floatIsNegative number then "-" ++ size else size := by
    rw [Json.floatText, if_pos finite]
    refine ⟨_, ?_, rfl⟩
    split
    · exact .inl rfl
    · exact .inr rfl
  obtain ⟨sign, isSign, chars⟩ : ∃ sign, (sign = [] ∨ sign = ['-']) ∧
      (Json.floatText number).toList = sign ++ size.toList := by
    rw [text]
    split
    · exact ⟨['-'], .inr rfl, by simp⟩
    · exact ⟨[], .inl rfl, rfl⟩
  rcases isSize with rfl | rfl
  · rcases (ofFloat .toEven number).exists_parts with
      ⟨whole, fraction, size, ⟨present, fractional⟩, digits, fractionDigits, _⟩
    rw [size] at chars
    exact lexes_positional chars isSign present digits fractional fractionDigits
  · rcases (ofFloat .toEven number).exists_scientific_parts with
      ⟨whole, point, exponent, sign, size, present, digits, pointed, signs, exponential,
        exponentDigits⟩
    rw [size] at chars
    exact lexes_scientific chars isSign present digits pointed signs exponential exponentDigits

end Decimal

/-! ## Values -/

/-- Where each part spells what some item stands for, all parts spell the items. -/
theorem Grammar.SpellsEach.exists_map {α β : Type} {spells : List Token → α → Prop} {erase : α → β}
    {used : List Token} {values : List β}
    (each : SpellsEach (fun used value => ∃ item, spells used item ∧ erase item = value) used
      values) : ∃ items, SpellsEach spells used items ∧ items.map erase = values := by
  rcases each with ⟨each⟩
  induction each with
  | nil => exact ⟨[], .nil, rfl⟩
  | cons first _ ih =>
      rcases first with ⟨item, spelled, rfl⟩
      rcases ih with ⟨items, others, rfl⟩
      exact ⟨item :: items, .cons spelled others, rfl⟩

/-- The tokens spell a constant literal of the value. -/
def Grammar.SpellsValue (tokens : List Token) (value : Json) : Prop :=
  ∃ literal, SpellsLiteral true tokens literal ∧ literal.toJson = value

/-- The whole number is read from its text. -/
theorem Parser.wholeNumber_toString (value : Int) : wholeNumber (toString value) = value := by
  have reads : Decimal.digitsValue 0 (Nat.toDigits 10 value.natAbs) = value.natAbs :=
    Nat.ofDigitChars_ten_toDigits
  have chars := Literal.toList_repr_eq value
  unfold wholeNumber
  by_cases positive : 0 ≤ value
  · rw [if_pos positive, List.nil_append] at chars
    rw [chars]
    split
    · rename_i tail same
      have isDigit := Nat.isDigit_of_mem_toDigits (b := 10) (c := '-') (n := value.natAbs)
        (by norm_num) (by norm_num) (same ▸ List.mem_cons_self)
      exact absurd isDigit (by decide)
    · rw [reads]
      omega
  · rw [if_neg positive, List.singleton_append] at chars
    rw [chars]
    simp only [reads]
    omega

theorem Parser.bodyBetween_quote (text : String) :
    bodyBetween 1 (Text.quote text) = text.toList.flatMap Text.escape := by
  rw [bodyBetween, toList_quote, List.drop_succ_cons, List.drop_zero, List.reverse_append,
    List.reverse_singleton, List.singleton_append, List.drop_succ_cons, List.drop_zero,
    List.reverse_reverse]

/-- What is read of a quoted text is the text. -/
theorem Parser.unescape_bodyBetween_quote (text : String) :
    String.ofList (Text.unescape (bodyBetween 1 (Text.quote text))) = text := by
  rw [bodyBetween_quote, Text.unescape_flatMap_escape, String.ofList_toList]

theorem Token.lexes_toString (value : Int) :
    Lexes Breaks (toString value) (IsSingle .int (toString value)) :=
  lexes_whole (Literal.toList_repr_eq value) (by split <;> simp)
    (List.ne_nil_of_length_pos Nat.length_toDigits_pos) fun _ member =>
      Nat.isDigit_of_mem_toDigits (by norm_num) (by norm_num) member

/-- A name that is no keyword for a value. -/
theorem Token.lexes_valueName {text : String} (isWord : IsWordText text)
    (other : text ∉ ["true", "false", "null"]) (span : Span) :
    Lexes Breaks text (IsOne fun token => IsName token ⟨text, span⟩ ∧
      token.kind ≠ .keyword .trueValue ∧ token.kind ≠ .keyword .falseValue ∧
        token.kind ≠ .keyword .nullValue) := by
  refine (lexes_word isWord).weaken ?_
  rintro _ ⟨token, rfl, isKind, reads⟩
  have differs (word : Keyword) (named : word.text ∈ ["true", "false", "null"]) :
      token.kind ≠ .keyword word := by
    intro isWord
    rw [isKind, wordKind] at isWord
    split at isWord
    · rename_i found
      cases isWord
      have same := List.find?_some found
      rw [beq_iff_eq] at same
      exact other (same ▸ named)
    · cases isWord
  exact ⟨token, rfl, ⟨by rw [isKind]; exact isName_wordKind text, reads⟩, differs _ (by decide),
    differs _ (by decide), differs _ (by decide)⟩

namespace Literal

variable {constant : Bool}

theorem lexes_int {value : Int} (fits : Json.fitsInt64 value = true) (span : Span) :
    Lexes Breaks (toString value) (SpellsLiteral constant · (int value span)) := by
  refine (lexes_toString value).weaken ?_
  rintro _ ⟨token, rfl, isInt, reads⟩
  have same := Parser.wholeNumber_toString value
  have spelled : SpellsLiteral constant [token] (.int (Parser.wholeNumber (toString value)) span) :=
    .int isInt reads (by rwa [same])
  rwa [same] at spelled

theorem lexes_string (value : String) (span : Span) :
    Lexes Breaks (Text.quote value) (SpellsLiteral constant · (string value span)) := by
  refine (lexes_quote value).weaken ?_
  rintro _ ⟨token, rfl, isString, reads⟩
  have spelled : SpellsLiteral constant [token]
      (.string (String.ofList (Text.unescape (Parser.bodyBetween 1 (Text.quote value)))) span) :=
    .string isString reads
  rwa [Parser.unescape_bodyBetween_quote] at spelled

theorem lexes_boolean (value : Bool) (span : Span) :
    Lexes Breaks (boolean value span).print (SpellsLiteral constant · (boolean value span)) := by
  cases value with
  | false =>
      refine (lexes_keyword .falseValue).weaken ?_
      rintro _ ⟨token, rfl, isFalse⟩
      exact .falseValue isFalse
  | true =>
      refine (lexes_keyword .trueValue).weaken ?_
      rintro _ ⟨token, rfl, isTrue⟩
      exact .trueValue isTrue

theorem lexes_null (span : Span) :
    Lexes Breaks (null span).print (SpellsLiteral constant · (null span)) := by
  refine (lexes_keyword .nullValue).weaken ?_
  rintro _ ⟨token, rfl, isNull⟩
  exact .null isNull

theorem lexes_enum {name : Name} (isWord : IsWordText name.text)
    (other : name.text ∉ ["true", "false", "null"]) :
    Lexes Breaks name.text (SpellsLiteral constant · (enum name)) := by
  refine (lexes_valueName isWord other name.span).weaken ?_
  rintro _ ⟨token, rfl, isName, differs⟩
  exact .enum isName differs

end Literal

namespace Json

mutual

/-- Whole numbers fit in 64 bits, other numbers are finite, and the names of fields are words that
differ, so the value has a literal. -/
def IsWritable : Json → Prop
  | int value => fitsInt64 value = true
  | float value => value.isFinite = true
  | array items => ItemsWritable items
  | object fields =>
      (OrderedMap.keys fields).Nodup ∧ FieldsWritable fields
  | _ => True

def ItemsWritable : List Json → Prop
  | [] => True
  | item :: rest => IsWritable item ∧ ItemsWritable rest

def FieldsWritable : List (String × Json) → Prop
  | [] => True
  | (name, value) :: rest => IsWordText name ∧ IsWritable value ∧ FieldsWritable rest

end

/-! ### Single tokens -/

/-- A literal of the value is enough. -/
theorem lexes_of_literal {text : String} {literal : Literal}
    (lexes : Lexes Breaks text (SpellsLiteral true · literal)) :
    Lexes Breaks text (SpellsValue · literal.toJson) :=
  lexes.weaken fun _ spelled => ⟨literal, spelled, rfl⟩

theorem lexes_null : Lexes Breaks "null" (SpellsValue · null) :=
  lexes_of_literal (Literal.lexes_null ⟨0, 0⟩)

theorem lexes_bool (value : Bool) :
    Lexes Breaks (if value then "true" else "false") (SpellsValue · (bool value)) :=
  lexes_of_literal (Literal.lexes_boolean value ⟨0, 0⟩)

theorem lexes_int {value : Int} (fits : fitsInt64 value = true) :
    Lexes Breaks (toString value) (SpellsValue · (int value)) :=
  lexes_of_literal (Literal.lexes_int fits ⟨0, 0⟩)

/-- A text that is read as a finite number. -/
theorem lexes_float {number : Float} {text : String} (lexes : Lexes Breaks text (IsSingle .float text))
    (reads : Decimal.readNearest text = number) (finite : number.isFinite = true) :
    Lexes Breaks text (SpellsValue · (float number)) := by
  refine lexes.weaken ?_
  rintro _ ⟨token, rfl, isFloat, texted⟩
  refine ⟨.float _ ⟨0, 0⟩, .float isFloat texted, ?_⟩
  rw [Literal.toJson, reads, if_pos finite]

theorem lexes_string (text : String) :
    Lexes Breaks (Text.quote text) (SpellsValue · (string text)) :=
  lexes_of_literal (Literal.lexes_string text ⟨0, 0⟩)

/-- A name that is no keyword for a value. -/
theorem lexes_enum {text : String} (isWord : IsWordText text)
    (other : text ∉ ["true", "false", "null"]) :
    Lexes Breaks text (SpellsValue · (string text)) :=
  lexes_of_literal (@Literal.lexes_enum true ⟨text, ⟨0, 0⟩⟩ isWord other)

/-! ### Lists and objects -/

/-- A name and a value. -/
def SpellsEntry (tokens : List Token) (entry : String × Json) : Prop :=
  ∃ field, SpellsField true tokens field ∧ (field.1.text, field.2.toJson) = entry

theorem itemsToJson_eq (items : List Literal) :
    Literal.itemsToJson items = items.map Literal.toJson := by
  induction items with
  | nil => rfl
  | cons item items ih => rw [Literal.itemsToJson, ih, List.map_cons]

theorem fieldsToJson_eq (fields : List (Name × Literal)) :
    Literal.fieldsToJson fields = fields.map fun field => (field.1.text, field.2.toJson) := by
  induction fields with
  | nil => rfl
  | cons field fields ih => rw [Literal.fieldsToJson, ih, List.map_cons]

theorem lexes_array {texts : List String} {items : List Json}
    (each : List.Forall₂ (fun text value => Lexes Breaks text (SpellsValue · value)) texts items) :
    Lexes Breaks ("[" ++ ", ".intercalate texts ++ "]") (SpellsValue · (array items)) := by
  have between := lexes_between .openBracket .closeBracket (breaks_text rfl) each
  refine (between.mono fun _ _ => trivial).weaken ?_
  rintro _ ⟨opens, spelled, closes⟩
  rcases SpellsEach.exists_map spelled with ⟨literals, inner, rfl⟩
  exact ⟨.list literals ⟨0, 0⟩, .list (.mk opens inner closes), congrArg array (itemsToJson_eq _)⟩

theorem lexes_object {texts : List String} {fields : List (String × Json)}
    (each : List.Forall₂ (fun text entry => Lexes Breaks text (SpellsEntry · entry)) texts fields)
    (distinct : (OrderedMap.keys fields).Nodup) :
    Lexes Breaks ("\x7b" ++ ", ".intercalate texts ++ "\x7d") (SpellsValue · (object fields)) := by
  have between := lexes_between .openBrace .closeBrace (breaks_text rfl) each
  refine (between.mono fun _ _ => trivial).weaken ?_
  rintro _ ⟨opens, spelled, closes⟩
  rcases SpellsEach.exists_map spelled with ⟨literals, inner, rfl⟩
  refine ⟨.object literals ⟨0, 0⟩, .object (.mk opens inner closes), ?_⟩
  rw [Literal.toJson, fieldsToJson_eq, OrderedMap.ofPairs_of_nodup distinct]

theorem lexes_entry {name text : String} {value : Json} (isWord : IsWordText name)
    (lexes : Lexes Breaks text (SpellsValue · value)) :
    Lexes Breaks (name ++ ": " ++ text) (SpellsEntry · (name, value)) := by
  refine ((lexes_label isWord ⟨0, 0⟩).followedBy lexes).weaken ?_
  rintro _ ⟨_, used, rfl, ⟨token, colon, rfl, isName, isColon⟩, literal, spelled, rfl⟩
  exact ⟨(⟨name, ⟨0, 0⟩⟩, literal), .mk isName isColon spelled, rfl⟩

mutual

/-- Any value has a literal that stands for it. -/
theorem lexes_literal {value : Json} (writable : value.IsWritable) :
    Lexes Breaks value.literal (SpellsValue · value) := by
  cases value with
  | null => exact lexes_null
  | bool value => exact lexes_bool value
  | int value =>
      simp only [IsWritable] at writable
      exact lexes_int writable
  | float number =>
      simp only [IsWritable] at writable
      exact lexes_float (Decimal.lexes_jsonFloatText writable)
        (Decimal.readNearest_jsonFloatText writable) writable
  | string text => exact lexes_string text
  | array items => exact lexes_array (lexes_literalItems writable)
  | object fields => exact lexes_object (lexes_literalFields writable.2) writable.1

theorem lexes_literalItems {items : List Json} (writable : ItemsWritable items) :
    List.Forall₂ (fun text value => Lexes Breaks text (SpellsValue · value)) (literalItems items)
      items := by
  cases items with
  | nil => exact .nil
  | cons item rest =>
      exact .cons (lexes_literal writable.1) (lexes_literalItems writable.2)

theorem lexes_literalFields {fields : List (String × Json)} (writable : FieldsWritable fields) :
    List.Forall₂ (fun text entry => Lexes Breaks text (SpellsEntry · entry)) (literalFields fields)
      fields := by
  cases fields with
  | nil => exact .nil
  | cons entry rest =>
      rcases entry with ⟨name, value⟩
      exact .cons (lexes_entry writable.1 (lexes_literal writable.2.1))
        (lexes_literalFields writable.2.2)

end

end Json

end GraphQL

import GraphQL.Proofs.Decimal.Finiteness
import GraphQL.Proofs.Document.Spelling
import GraphQL.Proofs.Schema.Content

/-!
# Default values

The literal of a default spells the default again, except that a whole number of type `Float` comes
back as a floating-point number. Which literal it is, or whether there is one, is decided by the
forms of input types alone, and it is the same before and after that change.
-/

namespace GraphQL

open Grammar Token

/-! ## Floating-point defaults -/

namespace Json

section

variable (forms : String → Option InputForm)

theorem floated_nonNull (value : Json) (inner : TypeRef) :
    floated forms value (.nonNull inner) = floated forms value inner := by
  rw [floated]

theorem floated_array (items : List Json) (item : TypeRef) :
    floated forms (.array items) (.list item) = .array (floatedItems forms items item) := by
  rw [floated]

theorem floated_single {value : Json} (single : ∀ items, value ≠ .array items) (item : TypeRef) :
    floated forms value (.list item) = floated forms value item := by
  rw [floated]
  exact single

theorem floated_object {fields : List (String × Json)} {name : String}
    {type? : String → Option TypeRef} (isObject : forms name = some (.inputObject type?)) :
    floated forms (.object fields) (.named name) = .object (floatedFields forms type? fields) := by
  rw [floated]
  simp only [isObject]

/-- Other values of a named type stay as they are. -/
theorem floated_named {value : Json} (noInt : ∀ number, value ≠ .int number)
    (noObject : ∀ fields, value ≠ .object fields) (name : String) :
    floated forms value (.named name) = value := by
  rw [floated]
  · exact noInt
  · exact noObject

/-- Only an input type has types for fields. -/
theorem floated_other (fields : List (String × Json)) {name : String}
    (noObject : ∀ type?, forms name ≠ some (.inputObject type?)) :
    floated forms (.object fields) (.named name) = .object fields := by
  rw [floated]
  split
  · exact absurd ‹_› (noObject _)
  · rfl

theorem floated_null (type : TypeRef) : floated forms .null type = .null := by
  induction type with
  | named name => exact floated_named forms (by simp) (by simp) name
  | list item ih => rw [floated_single forms (by simp), ih]
  | nonNull inner ih => rw [floated_nonNull, ih]

/-- Only arrays become arrays. -/
theorem floated_ne_array {value : Json} (single : ∀ items, value ≠ .array items) (type : TypeRef)
    (items : List Json) : floated forms value type ≠ .array items := by
  induction type with
  | named name =>
      cases value with
      | array items => exact absurd rfl (single items)
      | int number =>
          rw [floated]
          split <;> simp
      | object fields =>
          rw [floated]
          split <;> simp
      | _ => rw [floated] <;> simp
  | list item ih =>
      rw [floated_single forms single]
      exact ih
  | nonNull inner ih =>
      rw [floated_nonNull]
      exact ih

theorem keys_floatedFields (type? : String → Option TypeRef) (fields : List (String × Json)) :
    OrderedMap.keys (floatedFields forms type? fields) = OrderedMap.keys fields := by
  induction fields with
  | nil => rw [floatedFields]
  | cons field fields ih => rw [floatedFields, OrderedMap.keys_cons, OrderedMap.keys_cons, ih]

mutual

/-- Nothing is left to change. -/
theorem floated_floated (value : Json) (type : TypeRef) :
    floated forms (floated forms value type) type = floated forms value type := by
  cases type with
  | nonNull inner =>
      rw [floated_nonNull, floated_nonNull]
      exact floated_floated value inner
  | list item =>
      by_cases isArray : ∃ items, value = .array items
      · rcases isArray with ⟨items, rfl⟩
        rw [floated_array, floated_array, floatedItems_floatedItems]
      · have single : ∀ items, value ≠ .array items := fun items same => isArray ⟨items, same⟩
        rw [floated_single forms single, floated_single forms (floated_ne_array forms single item)]
        exact floated_floated value item
  | named name =>
      cases value with
      | int number =>
          rw [floated]
          split
          · rw [floated] <;> simp
          · rw [floated, if_neg ‹_›]
      | object fields =>
          by_cases isObject : ∃ type?, forms name = some (.inputObject type?)
          · rcases isObject with ⟨type?, isObject⟩
            rw [floated_object forms isObject, floated_object forms isObject,
              floatedFields_floatedFields]
          · have noObject : ∀ type?, forms name ≠ some (.inputObject type?) :=
              fun type? same => isObject ⟨type?, same⟩
            rw [floated_other forms fields noObject, floated_other forms fields noObject]
      | _ =>
          exact congrArg (floated forms · _) (floated_named forms (by simp) (by simp) name)
termination_by (sizeOf value, sizeOf type)

theorem floatedItems_floatedItems (items : List Json) (type : TypeRef) :
    floatedItems forms (floatedItems forms items type) type = floatedItems forms items type := by
  cases items with
  | nil => rw [floatedItems, floatedItems]
  | cons item rest =>
      rw [floatedItems, floatedItems, floated_floated item type,
        floatedItems_floatedItems rest type]
termination_by (sizeOf items, 0)

theorem floatedFields_floatedFields (type? : String → Option TypeRef)
    (fields : List (String × Json)) :
    floatedFields forms type? (floatedFields forms type? fields) =
      floatedFields forms type? fields := by
  cases fields with
  | nil => rw [floatedFields, floatedFields]
  | cons field rest =>
      rcases field with ⟨name, value⟩
      rw [floatedFields, floatedFields, floatedFields_floatedFields type? rest]
      cases known : type? name with
      | none => rfl
      | some type => simp only [floated_floated value type]
termination_by (sizeOf fields, 0)

end

end

end Json

/-! ## Forms of input types -/

namespace Schema

section

variable {schema : Schema} {name : String}

theorem inputForm?_eq_bind : schema.inputForm? name =
    ((schema.type? name).map SchemaType.form).bind TypeForm.inputForm? := by
  unfold inputForm?
  cases schema.type? name <;> rfl

end

/-! ## Literals of defaults -/

section

variable (schema : Schema)

theorem defaultLiteral_null (type : TypeRef) : schema.defaultLiteral .null type = .ok "null" := by
  rw [defaultLiteral]

theorem defaultLiteral_nonNull (value : Json) (inner : TypeRef) :
    schema.defaultLiteral value (.nonNull inner) = schema.defaultLiteral value inner := by
  cases value with
  | null => rw [defaultLiteral_null, defaultLiteral_null]
  | _ => rw [defaultLiteral]; simp

theorem defaultLiteral_single {value : Json} (single : ∀ items, value ≠ .array items)
    (item : TypeRef) :
    schema.defaultLiteral value (.list item) = schema.defaultLiteral value item := by
  cases value with
  | null => rw [defaultLiteral_null, defaultLiteral_null]
  | array items => exact absurd rfl (single items)
  | _ => rw [defaultLiteral] <;> simp

theorem defaultItems_eq_ok {items : List Json} {type : TypeRef} {texts : List String} :
    schema.defaultItems items type = .ok texts ↔
      List.Forall₂ (fun item text => schema.defaultLiteral item type = .ok text) items texts := by
  induction items generalizing texts with
  | nil => rw [defaultItems]; cases texts <;> simp
  | cons item rest ih =>
      rw [defaultItems]
      cases first : schema.defaultLiteral item type with
      | error fault => simp [bind, Except.bind, List.forall₂_cons_left_iff, first]
      | ok text =>
          cases others : schema.defaultItems rest type with
          | error fault =>
              simp only [bind, Except.bind, List.forall₂_cons_left_iff, first, ← ih, others]
              simp
          | ok texts =>
              simp only [bind, Except.bind, List.forall₂_cons_left_iff, first, ← ih, others, pure,
                Except.pure]
              simp [eq_comm]

theorem defaultLiteral_array_eq_ok {items : List Json} {item : TypeRef} {text : String} :
    schema.defaultLiteral (.array items) (.list item) = .ok text ↔
      ∃ texts, List.Forall₂ (fun value text => schema.defaultLiteral value item = .ok text) items
          texts ∧ text = "[" ++ ", ".intercalate texts ++ "]" := by
  simp only [← schema.defaultItems_eq_ok]
  rw [defaultLiteral]
  cases schema.defaultItems items item with
  | error fault => simp [bind, Except.bind]
  | ok texts => simp [bind, Except.bind, pure, Except.pure, @eq_comm _ text]

/-- The field is declared, and this is its text. -/
def PrintsField (type? : String → Option TypeRef) (field : String × Json) (text : String) : Prop :=
  ∃ type valueText, type? field.1 = some type ∧
    schema.defaultLiteral field.2 type = .ok valueText ∧ text = field.1 ++ ": " ++ valueText

theorem defaultFields_eq_ok {declared : OrderedMap InputValue} {unexpected : SchemaError}
    {fields : List (String × Json)} {texts : List String} :
    schema.defaultFields declared unexpected fields = .ok texts ↔
      List.Forall₂ (schema.PrintsField fun name =>
        (OrderedMap.find? declared name).map InputValue.type) fields texts := by
  induction fields generalizing texts with
  | nil => rw [defaultFields]; cases texts <;> simp
  | cons field rest ih =>
      rcases field with ⟨name, value⟩
      rw [defaultFields]
      cases found : OrderedMap.find? declared name with
      | none => simp [List.forall₂_cons_left_iff, PrintsField, found]
      | some known =>
          cases first : schema.defaultLiteral value known.type with
          | error fault => simp [bind, Except.bind, List.forall₂_cons_left_iff, PrintsField, found, first]
          | ok text =>
              cases others : schema.defaultFields declared unexpected rest with
              | error fault =>
                  simp only [bind, Except.bind, List.forall₂_cons_left_iff, PrintsField, found, first,
                    ← ih, others]
                  simp
              | ok texts =>
                  simp only [bind, Except.bind, List.forall₂_cons_left_iff, PrintsField, found, first,
                    ← ih, others, pure, Except.pure]
                  simp [eq_comm, first]

/-- A value of a named type is printed by the form of the type. -/
theorem defaultLiteral_named_eq_ok {value : Json} (present : value ≠ .null) {name text : String} :
    schema.defaultLiteral value (.named name) = .ok text ↔
      (schema.inputForm? name = some .scalar ∧ scalarLiteral? name value = some text) ∨
      (∃ has, schema.inputForm? name = some (.enum has) ∧ value = .string text ∧
        has text = true) ∨
      ∃ type? fields texts, schema.inputForm? name = some (.inputObject type?) ∧
        value = .object fields ∧
        List.Forall₂ (schema.PrintsField type?) fields texts ∧
        text = "\x7b" ++ ", ".intercalate texts ++ "\x7d" := by
  rw [defaultLiteral.eq_5 _ _ _ present, inputForm?_eq_bind]
  cases (schema.type? name).map SchemaType.form with
  | none => simp
  | some form =>
      cases form with
      | scalar =>
          simp only [Option.bind_some, TypeForm.inputForm?]
          cases scalarLiteral? name value <;> simp
      | enum values =>
          simp only [Option.bind_some, TypeForm.inputForm?]
          cases value with
          | string given =>
              dsimp only
              split <;> simp <;> grind
          | _ => simp
      | inputObject declared =>
          simp only [Option.bind_some, TypeForm.inputForm?]
          cases value with
          | object fields =>
              dsimp only
              cases printed : schema.defaultFields declared
                (.unexpectedDefault (.named name) (.object fields)) fields with
              | error fault =>
                  simp only [bind, Except.bind, reduceCtorEq, false_iff]
                  rintro (⟨isScalar, _⟩ | ⟨_, isEnum, _⟩ | ⟨_, _, _, isObject, same, again, rfl⟩)
                  · cases isScalar
                  · cases isEnum
                  · cases isObject
                    cases same
                    rw [(schema.defaultFields_eq_ok).mpr again] at printed
                    cases printed
              | ok texts =>
                  simp only [bind, Except.bind, pure, Except.pure]
                  refine ⟨fun same => ?_, ?_⟩
                  · cases same
                    exact .inr (.inr ⟨_, _, _, rfl, rfl, schema.defaultFields_eq_ok.mp printed, rfl⟩)
                  · rintro (⟨isScalar, _⟩ | ⟨_, isEnum, _⟩ | ⟨_, _, _, isObject, same, again, rfl⟩)
                    · cases isScalar
                    · cases isEnum
                    · cases isObject
                      cases same
                      rw [schema.defaultFields_eq_ok.mpr again] at printed
                      cases printed
                      rfl
          | _ => simp
      | _ => simp [TypeForm.inputForm?]

/-- A whole number stands for a number of type `Float`, and for a list of one. -/
theorem defaultLiteral_whole (isScalar : schema.inputForm? "Float" = some .scalar) (number : Int)
    {type : TypeRef} (isFloat : type.innermost = "Float") :
    schema.defaultLiteral (.int number) type = .ok (Literal.floatText (Float.ofInt number)) := by
  induction type with
  | named name =>
      obtain rfl : name = "Float" := isFloat
      exact (defaultLiteral_named_eq_ok schema (by simp)).mpr (.inl ⟨isScalar, rfl⟩)
  | list item ih =>
      rw [defaultLiteral_single schema (by simp)]
      exact ih isFloat
  | nonNull inner ih =>
      rw [defaultLiteral_nonNull]
      exact ih isFloat

end

/-! ## Printing what has been changed -/

section

variable {schema other : Schema}

theorem scalarLiteral?_floated (value : Json) {name : String}
    (isScalar : schema.inputForm? name = some .scalar) :
    scalarLiteral? name (value.floated schema.inputForm? (.named name)) =
      scalarLiteral? name value := by
  cases value with
  | int number =>
      rw [Json.floated]
      split
      · rename_i isFloat
        simp [scalarLiteral?, isFloat]
      · rfl
  | object fields => rw [Json.floated_other _ _ (by simp [isScalar])]
  | _ => rw [Json.floated_named _ (by simp) (by simp)]

/-- A value of a named type that is no object becomes neither a string nor an object. -/
theorem floated_named_eq_string {value : Json} {name text : String} :
    value.floated schema.inputForm? (.named name) = .string text ↔ value = .string text := by
  cases value with
  | int number =>
      rw [Json.floated]
      split <;> simp
  | object fields =>
      rw [Json.floated]
      split <;> simp
  | _ => rw [Json.floated_named _ (by simp) (by simp)]

theorem floated_named_eq_null {value : Json} {name : String} :
    value.floated schema.inputForm? (.named name) = .null ↔ value = .null := by
  cases value with
  | int number =>
      rw [Json.floated]
      split <;> simp
  | object fields =>
      rw [Json.floated]
      split <;> simp
  | _ => rw [Json.floated_named _ (by simp) (by simp)]

/-- Only objects become objects. -/
theorem exists_of_floated_eq_object {value : Json} {name : String} {fields : List (String × Json)}
    (isObject : value.floated schema.inputForm? (.named name) = .object fields) :
    ∃ given, value = .object given := by
  cases value with
  | object given => exact ⟨given, rfl⟩
  | int number =>
      rw [Json.floated] at isObject
      split at isObject <;> cases isObject
  | _ =>
      rw [Json.floated_named _ (by simp) (by simp)] at isObject
      cases isObject

mutual

/-- The literal of a default does not change with its numbers, nor from one schema to another with
the same forms of input types. -/
theorem defaultLiteral_floated (same : other.inputForm? = schema.inputForm?) {value : Json}
    {type : TypeRef} {text : String} :
    other.defaultLiteral (value.floated schema.inputForm? type) type = .ok text ↔
      schema.defaultLiteral value type = .ok text := by
  cases type with
  | nonNull inner =>
      rw [defaultLiteral_nonNull, defaultLiteral_nonNull, Json.floated_nonNull]
      exact defaultLiteral_floated same
  | list item =>
      by_cases isArray : ∃ items, value = .array items
      · rcases isArray with ⟨items, rfl⟩
        rw [Json.floated_array, defaultLiteral_array_eq_ok, defaultLiteral_array_eq_ok]
        exact exists_congr fun texts => and_congr_left' (defaultItems_floated same)
      · have single : ∀ items, value ≠ .array items := fun items same => isArray ⟨items, same⟩
        rw [Json.floated_single _ single, defaultLiteral_single _ single,
          defaultLiteral_single _ (Json.floated_ne_array _ single item)]
        exact defaultLiteral_floated same
  | named name =>
      by_cases isNull : value = .null
      · rw [isNull, Json.floated_null, defaultLiteral_null, defaultLiteral_null]
      · rw [defaultLiteral_named_eq_ok _ isNull,
          defaultLiteral_named_eq_ok _ (fun null => isNull (floated_named_eq_null.mp null)), same]
        refine or_congr ?_ (or_congr ?_ ?_)
        · refine and_congr_right fun isScalar => ?_
          rw [scalarLiteral?_floated value isScalar]
        · simp only [floated_named_eq_string]
        · constructor
          · rintro ⟨type?, fields, texts, isObject, sameValue, printed, rfl⟩
            rcases exists_of_floated_eq_object sameValue with ⟨given, rfl⟩
            rw [Json.floated_object _ isObject, Json.object.injEq] at sameValue
            subst sameValue
            exact ⟨type?, given, texts, isObject, rfl, (defaultFields_floated same).mp printed, rfl⟩
          · rintro ⟨type?, fields, texts, isObject, rfl, printed, rfl⟩
            exact ⟨type?, _, texts, isObject, Json.floated_object _ isObject,
              (defaultFields_floated same).mpr printed, rfl⟩
termination_by (sizeOf value, sizeOf type)

theorem defaultItems_floated (same : other.inputForm? = schema.inputForm?) {items : List Json}
    {type : TypeRef} {texts : List String} :
    List.Forall₂ (fun item text => other.defaultLiteral item type = .ok text)
        (Json.floatedItems schema.inputForm? items type) texts ↔
      List.Forall₂ (fun item text => schema.defaultLiteral item type = .ok text) items texts := by
  cases items with
  | nil => rw [Json.floatedItems, List.forall₂_nil_left_iff, List.forall₂_nil_left_iff]
  | cons item rest =>
      rw [Json.floatedItems, List.forall₂_cons_left_iff, List.forall₂_cons_left_iff]
      have first (text : String) :
          other.defaultLiteral (item.floated schema.inputForm? type) type = .ok text ↔
            schema.defaultLiteral item type = .ok text := defaultLiteral_floated same
      have others (texts : List String) :
          List.Forall₂ (fun item text => other.defaultLiteral item type = .ok text)
              (Json.floatedItems schema.inputForm? rest type) texts ↔
            List.Forall₂ (fun item text => schema.defaultLiteral item type = .ok text) rest texts :=
        defaultItems_floated same
      simp only [first, others]
termination_by (sizeOf items, 0)

theorem defaultFields_floated (same : other.inputForm? = schema.inputForm?)
    {fields : List (String × Json)} {type? : String → Option TypeRef} {texts : List String} :
    List.Forall₂ (other.PrintsField type?) (Json.floatedFields schema.inputForm? type? fields)
        texts ↔
      List.Forall₂ (schema.PrintsField type?) fields texts := by
  cases fields with
  | nil => rw [Json.floatedFields, List.forall₂_nil_left_iff, List.forall₂_nil_left_iff]
  | cons field rest =>
      rcases field with ⟨name, value⟩
      rw [Json.floatedFields, List.forall₂_cons_left_iff, List.forall₂_cons_left_iff]
      have others (texts : List String) :
          List.Forall₂ (other.PrintsField type?)
              (Json.floatedFields schema.inputForm? type? rest) texts ↔
            List.Forall₂ (schema.PrintsField type?) rest texts := defaultFields_floated same
      cases known : type? name with
      | none =>
          have first (text : String) : other.PrintsField type? (name, value) text ↔
              schema.PrintsField type? (name, value) text := by
            simp [PrintsField, known]
          simp only [first, others]
      | some type =>
          have literal (text : String) :
              other.defaultLiteral (value.floated schema.inputForm? type) type = .ok text ↔
                schema.defaultLiteral value type = .ok text := defaultLiteral_floated same
          have first (text : String) :
              other.PrintsField type? (name, value.floated schema.inputForm? type) text ↔
                schema.PrintsField type? (name, value) text := by
            simp only [PrintsField, known, Option.some.injEq, exists_and_left, exists_eq_left',
              literal]
          simp only [first, others]
termination_by (sizeOf fields, 0)

end

end

/-! ## Reading what has been printed -/

section

variable {schema : Schema}

/-- Every value of an enum is a word, but none that stands for another value. -/
def EnumsWritable (schema : Schema) : Prop :=
  ∀ name has, schema.inputForm? name = some (.enum has) → ∀ text, has text = true →
    IsWordText text ∧ text ∉ ["true", "false", "null"]

theorem exists_enum_of_inputForm? {name text : String} {has : String → Bool}
    (isEnum : schema.inputForm? name = some (.enum has)) (isValue : has text = true) :
    ∃ type values value, (name, type) ∈ schema.types ∧ type.form = .enum values ∧
      value ∈ values ∧ value.name = text := by
  rcases Option.bind_eq_some_iff.mp isEnum with ⟨type, found, isForm⟩
  have member := OrderedMap.mem_of_find? found
  cases form : type.form with
  | enum values =>
      rw [form, TypeForm.inputForm?] at isForm
      cases isForm
      rcases List.any_eq_true.mp isValue with ⟨value, valueMember, same⟩
      exact ⟨type, values, value, member, form, valueMember, eq_of_beq same⟩
  | _ =>
      rw [form] at isForm
      cases isForm

theorem scalarLiteral?_cases {value : Json} {name text : String} (noFloat : name ≠ "Float")
    (printed : scalarLiteral? name value = some text) :
    (∃ number, value = .int number ∧ text = toString number) ∨
      (∃ given, value = .string given ∧ text = Text.quote given) ∨
      (∃ flag, value = .bool flag ∧ text = if flag then "true" else "false") ∨
      text = value.literal := by
  unfold scalarLiteral? at printed
  cases value <;> simp only [if_neg noFloat] at printed ⊢ <;> split_ifs at printed <;>
    simp_all

theorem lexes_scalarLiteral {value : Json} {name text : String}
    (isScalar : schema.inputForm? name = some .scalar)
    (printed : scalarLiteral? name value = some text) (writable : value.IsWritable) :
    Lexes Breaks text (SpellsValue · (value.floated schema.inputForm? (.named name))) := by
  by_cases isFloat : name = "Float"
  · subst isFloat
    cases value with
    | int number =>
        rw [Json.floated, if_pos rfl]
        simp only [Json.IsWritable] at writable
        cases printed
        have finite := isFinite_ofInt writable
        exact Json.lexes_float (Decimal.lexes_floatText finite)
          (Decimal.readNearest_floatText finite) finite
    | float number =>
        rw [Json.floated_named _ (by simp) (by simp)]
        simp only [Json.IsWritable] at writable
        cases printed
        exact Json.lexes_float (Decimal.lexes_floatText writable)
          (Decimal.readNearest_floatText writable) writable
    | _ => cases printed
  · have same : value.floated schema.inputForm? (.named name) = value := by
      cases value with
      | int number => rw [Json.floated, if_neg isFloat]
      | object fields => exact Json.floated_other _ _ (by simp [isScalar])
      | _ => exact Json.floated_named _ (by simp) (by simp) name
    rw [same]
    rcases scalarLiteral?_cases isFloat printed with
      ⟨number, rfl, rfl⟩ | ⟨given, rfl, rfl⟩ | ⟨flag, rfl, rfl⟩ | rfl
    · simp only [Json.IsWritable] at writable
      exact Json.lexes_int writable
    · exact Json.lexes_string given
    · exact Json.lexes_bool flag
    · exact Json.lexes_literal writable

mutual

/-- The literal of a default is scanned into tokens that spell the default. -/
theorem lexes_defaultLiteral (enums : schema.EnumsWritable) {value : Json} {type : TypeRef}
    {text : String} (printed : schema.defaultLiteral value type = .ok text)
    (writable : value.IsWritable) :
    Lexes Breaks text (SpellsValue · (value.floated schema.inputForm? type)) := by
  cases type with
  | nonNull inner =>
      rw [defaultLiteral_nonNull] at printed
      rw [Json.floated_nonNull]
      exact lexes_defaultLiteral enums printed writable
  | list item =>
      by_cases isArray : ∃ items, value = .array items
      · rcases isArray with ⟨items, rfl⟩
        rcases schema.defaultLiteral_array_eq_ok.mp printed with ⟨texts, each, rfl⟩
        rw [Json.floated_array]
        exact Json.lexes_array (lexes_defaultItems enums each writable)
      · have single : ∀ items, value ≠ .array items := fun items same => isArray ⟨items, same⟩
        rw [defaultLiteral_single _ single] at printed
        rw [Json.floated_single _ single]
        exact lexes_defaultLiteral enums printed writable
  | named name =>
      by_cases isNull : value = .null
      · rw [isNull, defaultLiteral_null] at printed
        rw [isNull, Json.floated_null]
        cases printed
        exact Json.lexes_null
      · rcases (schema.defaultLiteral_named_eq_ok isNull).mp printed with
          ⟨isScalar, printed⟩ | ⟨has, isEnum, rfl, known⟩ |
          ⟨type?, fields, texts, isObject, rfl, each, rfl⟩
        · exact lexes_scalarLiteral isScalar printed writable
        · rcases enums name has isEnum text known with ⟨isWord, other⟩
          rw [Json.floated_named _ (by simp) (by simp)]
          exact Json.lexes_enum isWord other
        · rw [Json.floated_object _ isObject]
          refine Json.lexes_object (lexes_defaultFields enums each writable.2) ?_
          rw [Json.keys_floatedFields]
          exact writable.1
termination_by (sizeOf value, sizeOf type)

theorem lexes_defaultItems (enums : schema.EnumsWritable) {items : List Json} {type : TypeRef}
    {texts : List String}
    (each : List.Forall₂ (fun item text => schema.defaultLiteral item type = .ok text) items texts)
    (writable : Json.ItemsWritable items) :
    List.Forall₂ (fun text value => Lexes Breaks text (SpellsValue · value)) texts
      (Json.floatedItems schema.inputForm? items type) := by
  cases items with
  | nil =>
      cases each
      rw [Json.floatedItems]
      exact .nil
  | cons item rest =>
      rcases List.forall₂_cons_left_iff.mp each with ⟨text, texts, first, others, rfl⟩
      rw [Json.floatedItems]
      exact .cons (lexes_defaultLiteral enums first writable.1)
        (lexes_defaultItems enums others writable.2)
termination_by (sizeOf items, 0)

theorem lexes_defaultFields (enums : schema.EnumsWritable) {fields : List (String × Json)}
    {type? : String → Option TypeRef} {texts : List String}
    (each : List.Forall₂ (schema.PrintsField type?) fields texts)
    (writable : Json.FieldsWritable fields) :
    List.Forall₂ (fun text entry => Lexes Breaks text (Json.SpellsEntry · entry)) texts
      (Json.floatedFields schema.inputForm? type? fields) := by
  match fields with
  | [] =>
      cases each
      rw [Json.floatedFields]
      exact .nil
  | (name, value) :: rest =>
      rcases List.forall₂_cons_left_iff.mp each with
        ⟨_, texts, ⟨type, text, known, first, rfl⟩, others, rfl⟩
      have known : type? name = some type := known
      rw [Json.floatedFields, known]
      exact .cons (Json.lexes_entry writable.1 (lexes_defaultLiteral enums first writable.2.1))
        (lexes_defaultFields enums others writable.2.2)
termination_by (sizeOf fields, 0)

end

end

end Schema

end GraphQL

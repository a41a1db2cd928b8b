import GraphQL.Execution.Coercion

/-!
# Coercion by coerced defaults

A coercion takes its value apart and asks how defaults are coerced wherever a field is not given.
So two coercions are related as the coercions of their defaults are, by every relation that the steps
of a coercion keep. A coercion that has not ended is related to every other one.
-/

namespace GraphQL

/-! ## One step of a coercion -/

section Steps

variable (schema : Schema) (coerceDefault : DefaultCoercion)

theorem coerceBy_missing (inner : TypeRef) :
    coerceBy schema coerceDefault (.nonNull inner) .null =
      .error (.mismatch (.nonNull inner) .null) := by
  rw [coerceBy]

theorem coerceBy_nonNull (inner : TypeRef) {value : Json} (present : value ≠ .null) :
    coerceBy schema coerceDefault (.nonNull inner) value =
      coerceBy schema coerceDefault inner value := by
  rw [coerceBy]
  exact present

theorem coerceBy_null {type : TypeRef} (nullable : type.isNonNull = false) :
    coerceBy schema coerceDefault type .null = .ok .null := by
  cases type with
  | named name => rw [coerceBy]; simp
  | list item => rw [coerceBy]; simp
  | nonNull inner => cases nullable

theorem coerceBy_array (item : TypeRef) (items : List Json) :
    coerceBy schema coerceDefault (.list item) (.array items) =
      (coerceItems schema coerceDefault item items).map .array := by
  rw [coerceBy]
  rfl

theorem coerceBy_single (item : TypeRef) {value : Json} (present : value ≠ .null)
    (single : ∀ items, value ≠ .array items) :
    coerceBy schema coerceDefault (.list item) value =
      (coerceBy schema coerceDefault item value).map fun coerced => .array [coerced] := by
  rw [coerceBy]
  · rfl
  · exact present
  · exact single

/-- The form of a named type decides. -/
theorem coerceBy_named (name : String) (value : Json) : value ≠ .null →
    coerceBy schema coerceDefault (.named name) value =
      match (schema.type? name).map SchemaType.form with
      | some (.enum values) =>
          match value with
          | .string text =>
              if values.any (·.name == text) then .ok value
              else .error (.mismatch (.named name) value)
          | _ => .error (.mismatch (.named name) value)
      | some (.inputObject fields) =>
          match value with
          | .object given =>
              match (OrderedMap.keys given).find? fun key => !OrderedMap.contains fields key with
              | some unknown => .error (.undefinedField unknown name)
              | none => (coerceFields schema coerceDefault name given fields).map .object
          | _ => .error (.mismatch (.named name) value)
      | some .scalar | none => coerceScalar name value
      | some _ => .error (.notInput name) := by
  intro present
  rw [coerceBy]
  · rfl
  · exact present

theorem coerceItems_cons (type : TypeRef) (item : Json) (rest : List Json) :
    coerceItems schema coerceDefault type (item :: rest) =
      (coerceBy schema coerceDefault type item).bind fun first =>
        (coerceItems schema coerceDefault type rest).map fun others => first :: others := by
  rw [coerceItems]
  rfl

/-- A field of an input object: what is given or what is filled in. -/
def coerceField (typeName : String) (given : List (String × Json)) (name : String)
    (field : InputValue) : Except CoercionError (Option Json) :=
  match OrderedMap.find? given name with
  | some value => (coerceBy schema coerceDefault field.type value).map some
  | none => coerceAbsent coerceDefault (typeName, name) field

theorem coerceFields_cons (typeName : String) (given : List (String × Json)) (name : String)
    (field : InputValue) (rest : List (String × InputValue)) :
    coerceFields schema coerceDefault typeName given ((name, field) :: rest) =
      ((coerceField schema coerceDefault typeName given name field).mapError
        (.inField typeName name)).bind fun value =>
          (coerceFields schema coerceDefault typeName given rest).map fun others =>
            (value.map fun value => (name, value)).toList ++ others := by
  rw [coerceFields, coerceField]
  split <;> rename_i found <;> simp only [found] <;> rfl

end Steps

/-! ## Induction along a coercion -/

/-- A coercion goes into the type, the items of a list and the fields of an object. -/
theorem coercion_induction {motive : TypeRef → Json → Prop}
    (nonNull : ∀ inner value, motive inner value → motive (.nonNull inner) value)
    (array : ∀ item items, (∀ value ∈ items, motive item value) →
      motive (.list item) (.array items))
    (single : ∀ item value, (∀ items, value ≠ .array items) → motive item value →
      motive (.list item) value)
    (object : ∀ name given,
      (∀ key value, OrderedMap.find? given key = some value → ∀ type, motive type value) →
        motive (.named name) (.object given))
    (other : ∀ name value, (∀ given, value ≠ .object given) → motive (.named name) value)
    (type : TypeRef) (value : Json) : motive type value := by
  match type with
  | .nonNull inner =>
      exact nonNull inner value (coercion_induction nonNull array single object other inner value)
  | .list item =>
      cases value
      case array items =>
        refine array item items fun value member => ?_
        have := List.sizeOf_lt_of_mem member
        exact coercion_induction nonNull array single object other item value
      all_goals
        refine single item _ (fun _ same => by cases same) ?_
        exact coercion_induction nonNull array single object other item _
  | .named name =>
      cases value
      case object given =>
        refine object name given fun key value found type => ?_
        have := sizeOf_lt_of_find? found
        exact coercion_induction nonNull array single object other type value
      all_goals exact other name _ fun _ same => by cases same
termination_by (sizeOf value, sizeOf type)

/-! ## Related coercions -/

/-- An input object of the schema has a field with a default. -/
inductive Schema.HasDefault (schema : Schema) : InputFieldName → TypeRef → Json → Prop
  | intro {typeName name : String} {fields : OrderedMap InputValue} {field : InputValue}
      {value : Json} :
      (schema.type? typeName).map SchemaType.form = some (.inputObject fields) →
      (name, field) ∈ fields → field.default? = some value →
      HasDefault schema (typeName, name) field.type value

/-- Whether a coercion stops at a default that needs itself. -/
def isEndless {α : Type} : Except CoercionError α → Bool
  | .ok _ => false
  | .error error => error.isEndless

/-- A relation between results that the steps of a coercion keep. -/
class IsKeptByCoercion
    (rel : (α : Type) → Except CoercionError α → Except CoercionError α → Prop) : Prop where
  ended : ∀ {α : Type} {result : Except CoercionError α}, isEndless result = false →
    rel α result result
  bind : ∀ {α β : Type} {first second : Except CoercionError α}
    {next otherNext : α → Except CoercionError β}, rel α first second →
    (∀ value, rel β (next value) (otherNext value)) →
    rel β (first.bind next) (second.bind otherNext)
  inField : ∀ {α : Type} {first second : Except CoercionError α} (typeName name : String),
    rel α first second →
    rel α (first.mapError (.inField typeName name)) (second.mapError (.inField typeName name))

section Related

variable {rel : (α : Type) → Except CoercionError α → Except CoercionError α → Prop}
  [IsKeptByCoercion rel]

theorem related_map {α β : Type} {first second : Except CoercionError α}
    (related : rel α first second) (change : α → β) :
    rel β (first.map change) (second.map change) := by
  have asBind (result : Except CoercionError α) :
      result.map change = result.bind fun value => .ok (change value) := by
    cases result <;> rfl
  rw [asBind, asBind]
  exact IsKeptByCoercion.bind related fun value => IsKeptByCoercion.ended rfl

theorem isEndless_coerceScalar (name : String) (value : Json) :
    isEndless (coerceScalar name value) = false := by
  unfold coerceScalar
  dsimp only
  repeat' split
  all_goals rfl

variable {schema : Schema} {first second : DefaultCoercion}

theorem coerceItems_related {type : TypeRef} {items : List Json}
    (related : ∀ item ∈ items,
      rel Json (coerceBy schema first type item) (coerceBy schema second type item)) :
    rel (List Json) (coerceItems schema first type items)
      (coerceItems schema second type items) := by
  induction items with
  | nil =>
      rw [coerceItems, coerceItems]
      exact IsKeptByCoercion.ended rfl
  | cons item items ih =>
      rw [coerceItems_cons, coerceItems_cons]
      refine IsKeptByCoercion.bind (related item List.mem_cons_self) fun value => ?_
      exact related_map (ih fun item member => related item (List.mem_cons_of_mem _ member)) _

variable (defaults : ∀ {name type value}, schema.HasDefault name type value →
  rel Json (first name type value) (second name type value))

include defaults

theorem coerceFields_related {typeName : String} {declared : OrderedMap InputValue}
    (isInput : (schema.type? typeName).map SchemaType.form = some (.inputObject declared))
    {given : List (String × Json)}
    (related : ∀ key value, OrderedMap.find? given key = some value → ∀ type,
      rel Json (coerceBy schema first type value) (coerceBy schema second type value))
    {fields : List (String × InputValue)} (subset : ∀ entry ∈ fields, entry ∈ declared) :
    rel (List (String × Json)) (coerceFields schema first typeName given fields)
      (coerceFields schema second typeName given fields) := by
  induction fields with
  | nil =>
      rw [coerceFields, coerceFields]
      exact IsKeptByCoercion.ended rfl
  | cons entry fields ih =>
      rcases entry with ⟨name, field⟩
      rw [coerceFields_cons, coerceFields_cons]
      refine IsKeptByCoercion.bind (IsKeptByCoercion.inField typeName name ?_) fun value => ?_
      · unfold coerceField
        split
        · exact related_map (related name _ ‹_› field.type) some
        · unfold coerceAbsent
          split
          · refine related_map (defaults ?_) some
            exact .intro isInput (subset _ List.mem_cons_self) ‹_›
          · split <;> exact IsKeptByCoercion.ended rfl
      · exact related_map (ih fun entry member => subset entry (List.mem_cons_of_mem _ member)) _

/-- Coercions are related as the coercions of defaults are. -/
theorem coerceBy_related (type : TypeRef) (value : Json) :
    rel Json (coerceBy schema first type value) (coerceBy schema second type value) := by
  have ended {result : Except CoercionError Json} (isEnded : isEndless result = false) :
      rel Json result result :=
    IsKeptByCoercion.ended isEnded
  induction type, value using coercion_induction with
  | nonNull inner value ih =>
      by_cases missing : value = .null
      · subst missing
        rw [coerceBy_missing, coerceBy_missing]
        exact ended rfl
      · rw [coerceBy_nonNull _ _ _ missing, coerceBy_nonNull _ _ _ missing]
        exact ih
  | array item items ih =>
      rw [coerceBy_array, coerceBy_array]
      exact related_map (coerceItems_related ih) _
  | single item value noArray ih =>
      by_cases missing : value = .null
      · subst missing
        rw [coerceBy_null _ _ rfl, coerceBy_null _ _ rfl]
        exact ended rfl
      · rw [coerceBy_single _ _ _ missing noArray, coerceBy_single _ _ _ missing noArray]
        exact related_map ih _
  | object name given ih =>
      rw [coerceBy_named _ _ _ _ (by simp), coerceBy_named _ _ _ _ (by simp)]
      split
      · exact ended rfl
      · dsimp only
        split
        · exact ended rfl
        · exact related_map (coerceFields_related defaults ‹_› ih fun _ member => member) _
      · exact ended (isEndless_coerceScalar _ _)
      · exact ended (isEndless_coerceScalar _ _)
      · exact ended rfl
  | other name value noObject =>
      by_cases missing : value = .null
      · subst missing
        rw [coerceBy_null _ _ rfl, coerceBy_null _ _ rfl]
        exact ended rfl
      · rw [coerceBy_named _ _ _ _ missing, coerceBy_named _ _ _ _ missing]
        split
        · split
          · split <;> exact ended rfl
          · exact ended rfl
        · split
          · exact absurd rfl (noObject _)
          · exact ended rfl
        · exact ended (isEndless_coerceScalar _ _)
        · exact ended (isEndless_coerceScalar _ _)
        · exact ended rfl

end Related

end GraphQL

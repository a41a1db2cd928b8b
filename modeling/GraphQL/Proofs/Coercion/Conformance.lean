import GraphQL.Proofs.Coercion.Relating
import GraphQL.Proofs.Schema.Reading

/-!
# What coercion gives

A value conforms to an input type if a resolver may trust it to have that type. Coercion gives
conforming values only, and it leaves a conforming value as it is; so what coercion gives are exactly
the values that it does not change. The default of a field plays no part in the second half: a
conforming object has every field with a default.
-/

namespace GraphQL

/-! ## Conforming values -/

/-- The values of a scalar type. A type that is not built in has all values. -/
inductive IsScalarValue : String → Json → Prop
  | int {value : Int} : -2147483648 ≤ value → value ≤ 2147483647 → IsScalarValue "Int" (.int value)
  | wholeFloat (value : Int) : IsScalarValue "Float" (.int value)
  | float (value : Float) : IsScalarValue "Float" (.float value)
  | string (value : String) : IsScalarValue "String" (.string value)
  | boolean (value : Bool) : IsScalarValue "Boolean" (.bool value)
  | id (value : String) : IsScalarValue "ID" (.string value)
  | custom {name : String} (value : Json) : name ∉ Schema.builtInScalars → IsScalarValue name value

/-- The value has the input type. Types of objects, interfaces and unions have no value but null. -/
inductive Schema.Conforms (schema : Schema) : TypeRef → Json → Prop
  | null {type : TypeRef} : type.isNonNull = false → Conforms schema type .null
  | nonNull {inner : TypeRef} {value : Json} : value ≠ .null → Conforms schema inner value →
      Conforms schema (.nonNull inner) value
  | list {item : TypeRef} {items : List Json} : (∀ value ∈ items, Conforms schema item value) →
      Conforms schema (.list item) (.array items)
  | enum {name text : String} {values : List EnumValue} :
      (schema.type? name).map SchemaType.form = some (.enum values) →
      text ∈ values.map EnumValue.name → Conforms schema (.named name) (.string text)
  | object {name : String} {fields : OrderedMap InputValue} {given : OrderedMap Json} :
      (schema.type? name).map SchemaType.form = some (.inputObject fields) →
      (OrderedMap.keys given).Sublist (OrderedMap.keys fields) →
      (∀ key field value, (key, field) ∈ fields → (key, value) ∈ given →
        Conforms schema field.type value) →
      (∀ key field, (key, field) ∈ fields →
        field.type.isNonNull = true ∨ field.default?.isSome = true → key ∈ OrderedMap.keys given) →
      Conforms schema (.named name) (.object given)
  | scalar {name : String} {value : Json} :
      (schema.type? name).map SchemaType.form = some .scalar ∨ schema.type? name = none →
      value ≠ .null → IsScalarValue name value → Conforms schema (.named name) value

/-! ## Scalars -/

theorem fitsInt32_iff {value : Int} :
    fitsInt32 value = true ↔ -2147483648 ≤ value ∧ value ≤ 2147483647 := by
  simp only [fitsInt32, Bool.and_eq_true, decide_eq_true_eq]
  omega

theorem int64?_eq_some_iff {value : Json} {number : Int} :
    value.int64? = some number ↔ value = .int number ∧ Json.fitsInt64 number = true := by
  cases value <;> simp only [Json.int64?, reduceCtorEq, false_and]
  rename_i found
  split
  · rename_i fits
    simp only [Option.some.injEq, Json.int.injEq]
    exact ⟨fun same => ⟨same, same ▸ fits⟩, And.left⟩
  · rename_i large
    simp only [reduceCtorEq, Json.int.injEq, false_iff]
    rintro ⟨rfl, fits⟩
    exact large fits

/-- An integer that fits in 32 bits fits in 64. -/
theorem int64?_of_fitsInt32 {number : Int} (fits : fitsInt32 number = true) :
    (Json.int number).int64? = some number := by
  rw [fitsInt32_iff] at fits
  refine int64?_eq_some_iff.mpr ⟨rfl, ?_⟩
  simp only [Json.fitsInt64, Bool.and_eq_true, decide_eq_true_eq]
  omega

theorem isScalarValue_of_coerceScalar {name : String} {value result : Json}
    (coerced : coerceScalar name value = .ok result) :
    IsScalarValue name result ∧ (result = .null → value = .null) := by
  unfold coerceScalar at coerced
  dsimp only at coerced
  split at coerced
  · subst_vars
    split at coerced
    · rename_i fits
      obtain ⟨number, found, small⟩ := (Option.any_eq_true _ _).mp fits
      obtain ⟨rfl, -⟩ := int64?_eq_some_iff.mp found
      cases coerced
      rw [fitsInt32_iff] at small
      exact ⟨.int small.1 small.2, fun isNull => by cases isNull⟩
    · cases coerced
  split at coerced
  · subst_vars
    split at coerced <;> cases coerced
    · exact ⟨.wholeFloat _, fun isNull => by cases isNull⟩
    · exact ⟨.float _, fun isNull => by cases isNull⟩
  split at coerced
  · subst_vars
    split at coerced <;> cases coerced
    exact ⟨.string _, fun isNull => by cases isNull⟩
  split at coerced
  · subst_vars
    split at coerced <;> cases coerced
    exact ⟨.boolean _, fun isNull => by cases isNull⟩
  split at coerced
  · subst_vars
    split at coerced <;> cases coerced
    · exact ⟨.id _, fun isNull => by cases isNull⟩
    · exact ⟨.id _, fun isNull => by cases isNull⟩
  · cases coerced
    refine ⟨.custom _ ?_, id⟩
    simp_all [Schema.builtInScalars]

theorem coerceScalar_of_isScalarValue {name : String} {value : Json}
    (isValue : IsScalarValue name value) : coerceScalar name value = .ok value := by
  cases isValue with
  | @int number lower upper =>
      have fits : fitsInt32 number = true := fitsInt32_iff.mpr ⟨lower, upper⟩
      simp [coerceScalar, int64?_of_fitsInt32 fits, fits]
  | custom value notBuiltIn =>
      simp only [Schema.builtInScalars, List.mem_cons, List.not_mem_nil, or_false, not_or]
        at notBuiltIn
      obtain ⟨noInt, noFloat, noString, noBoolean, noId⟩ := notBuiltIn
      simp [coerceScalar, noInt, noFloat, noString, noBoolean, noId]
  | _ => rfl

/-! ## Results conform -/

section Results

variable {α β ε : Type}

theorem map_eq_ok {result : Except ε α} {change : α → β} {changed : β} :
    result.map change = .ok changed ↔ ∃ value, result = .ok value ∧ change value = changed := by
  cases result <;> simp [Except.map]

theorem mapError_eq_ok {result : Except ε α} {change : ε → β} {value : α} :
    result.mapError change = .ok value ↔ result = .ok value := by
  cases result <;> simp [Except.mapError]

variable {schema : Schema} {coerceDefault : DefaultCoercion}

theorem coerceItems_conform {type : TypeRef} {items results : List Json}
    (conform : ∀ item ∈ items, ∀ result, coerceBy schema coerceDefault type item = .ok result →
      schema.Conforms type result)
    (coerced : coerceItems schema coerceDefault type items = .ok results) :
    ∀ result ∈ results, schema.Conforms type result := by
  induction items generalizing results with
  | nil =>
      rw [coerceItems] at coerced
      cases coerced
      simp
  | cons item items ih =>
      rw [coerceItems_cons] at coerced
      obtain ⟨first, firstCoerced, coerced⟩ := bind_eq_ok.mp coerced
      obtain ⟨others, othersCoerced, rfl⟩ := map_eq_ok.mp coerced
      rintro result (_ | ⟨_, member⟩)
      · exact conform item List.mem_cons_self first firstCoerced
      · exact ih (fun item member => conform item (List.mem_cons_of_mem _ member)) othersCoerced
          result member

/-- The fields of an input object that has been coerced, up to some field of its type. -/
structure FieldsConform (schema : Schema) (fields : List (String × InputValue))
    (results : List (String × Json)) : Prop where
  inOrder : (OrderedMap.keys results).Sublist (OrderedMap.keys fields)
  conform : ∀ entry ∈ results, ∃ field, (entry.1, field) ∈ fields ∧
    schema.Conforms field.type entry.2
  present : ∀ key field, (key, field) ∈ fields →
    field.type.isNonNull = true ∨ field.default?.isSome = true → key ∈ OrderedMap.keys results

theorem FieldsConform.absent {fields : List (String × InputValue)} {results : List (String × Json)}
    (conform : FieldsConform schema fields results) {name : String} {field : InputValue}
    (nullable : field.type.isNonNull = false) (noDefault : field.default? = none) :
    FieldsConform schema ((name, field) :: fields) results where
  inOrder := conform.inOrder.cons name
  conform entry member := by
    obtain ⟨field, isField, conforms⟩ := conform.conform entry member
    exact ⟨field, List.mem_cons_of_mem _ isField, conforms⟩
  present := by
    rintro key other (_ | ⟨_, isField⟩) required
    · rw [nullable, noDefault] at required
      simp at required
    · exact conform.present key other isField required

theorem FieldsConform.given {fields : List (String × InputValue)} {results : List (String × Json)}
    (conform : FieldsConform schema fields results) {name : String} {field : InputValue} {value : Json}
    (conforms : schema.Conforms field.type value) :
    FieldsConform schema ((name, field) :: fields) ((name, value) :: results) where
  inOrder := conform.inOrder.cons_cons name
  conform := by
    rintro entry (_ | ⟨_, member⟩)
    · exact ⟨field, List.mem_cons_self, conforms⟩
    · obtain ⟨field, isField, conforms⟩ := conform.conform entry member
      exact ⟨field, List.mem_cons_of_mem _ isField, conforms⟩
  present := by
    rintro key other (_ | ⟨_, isField⟩) required
    · exact List.mem_cons_self
    · exact List.mem_cons_of_mem _ (conform.present key other isField required)

/-- An object type has different fields, so each value conforms to the field of its name. -/
theorem FieldsConform.object (keyed : ∀ entry ∈ schema.types, entry.2.form.IsKeyed) {name : String}
    {fields : OrderedMap InputValue}
    (isInput : (schema.type? name).map SchemaType.form = some (.inputObject fields))
    {results : OrderedMap Json} (conform : FieldsConform schema fields results) :
    schema.Conforms (.named name) (.object results) := by
  have distinct := Schema.nodup_keys_inputObject keyed isInput
  refine .object isInput conform.inOrder (fun key field value isField member => ?_) conform.present
  obtain ⟨other, isOther, conforms⟩ := conform.conform (key, value) member
  rwa [OrderedMap.eq_of_mem_of_mem distinct isField isOther]

theorem conforms_of_coerceScalar {name : String} {value result : Json}
    (isScalar : (schema.type? name).map SchemaType.form = some .scalar ∨ schema.type? name = none)
    (present : value ≠ .null) (coerced : coerceScalar name value = .ok result) :
    schema.Conforms (.named name) result ∧ (result = .null → value = .null) := by
  obtain ⟨isValue, kept⟩ := isScalarValue_of_coerceScalar coerced
  exact ⟨.scalar isScalar (fun isNull => present (kept isNull)) isValue, kept⟩

/-- A value of a named type, where the fields of an object conform to those of its type. -/
theorem conforms_of_coerceBy_named (keyed : ∀ entry ∈ schema.types, entry.2.form.IsKeyed)
    {name : String} {value result : Json} (present : value ≠ .null)
    (fieldsConform : ∀ {given fields results}, value = .object given →
      (schema.type? name).map SchemaType.form = some (.inputObject fields) →
      coerceFields schema coerceDefault name given fields = .ok results →
        FieldsConform schema fields results)
    (coerced : coerceBy schema coerceDefault (.named name) value = .ok result) :
    schema.Conforms (.named name) result ∧ (result = .null → value = .null) := by
  rw [coerceBy_named _ _ _ _ present] at coerced
  split at coerced
  · rename_i isEnum
    split at coerced
    · split at coerced
      · rename_i isValue
        cases coerced
        obtain ⟨value, member, same⟩ := List.any_eq_true.mp isValue
        exact ⟨.enum isEnum (List.mem_map.mpr ⟨value, member, by simpa using same⟩), id⟩
      · cases coerced
    · cases coerced
  · rename_i fields isInput
    split at coerced
    · split at coerced
      · cases coerced
      · obtain ⟨results, fieldsCoerced, rfl⟩ := map_eq_ok.mp coerced
        exact ⟨(fieldsConform rfl isInput fieldsCoerced).object keyed isInput, by rintro ⟨⟩⟩
    · cases coerced
  · exact conforms_of_coerceScalar (.inl ‹_›) present coerced
  · exact conforms_of_coerceScalar (.inr (Option.map_eq_none_iff.mp ‹_›)) present coerced
  · cases coerced

variable (defaults : ∀ {name type value}, schema.HasDefault name type value →
  ∀ result, coerceDefault name type value = .ok result → schema.Conforms type result)

include defaults

/-- A field that is present has a value of its type, and one that is absent may be. -/
theorem coerceField_conform {typeName : String} {declared : OrderedMap InputValue}
    (isInput : (schema.type? typeName).map SchemaType.form = some (.inputObject declared))
    {given : List (String × Json)}
    (conform : ∀ key value, OrderedMap.find? given key = some value → ∀ type result,
      coerceBy schema coerceDefault type value = .ok result → schema.Conforms type result)
    {name : String} {field : InputValue} (isField : (name, field) ∈ declared) {value? : Option Json}
    (coerced : coerceField schema coerceDefault typeName given name field = .ok value?) :
    (∀ value, value? = some value → schema.Conforms field.type value) ∧
      (value? = none → field.type.isNonNull = false ∧ field.default? = none) := by
  unfold coerceField at coerced
  split at coerced
  · rename_i value found
    obtain ⟨result, valueCoerced, rfl⟩ := map_eq_ok.mp coerced
    refine ⟨?_, by simp⟩
    rintro _ ⟨⟩
    exact conform name value found field.type result valueCoerced
  · unfold coerceAbsent at coerced
    split at coerced
    · rename_i default hasDefault
      obtain ⟨result, defaultCoerced, rfl⟩ := map_eq_ok.mp coerced
      refine ⟨?_, by simp⟩
      rintro _ ⟨⟩
      exact defaults (.intro isInput isField hasDefault) result defaultCoerced
    · rename_i noDefault
      split at coerced
      · cases coerced
      · rename_i nullable
        cases coerced
        exact ⟨by simp, fun _ => ⟨Bool.eq_false_iff.mpr nullable, noDefault⟩⟩

theorem coerceFields_conform {typeName : String} {declared : OrderedMap InputValue}
    (isInput : (schema.type? typeName).map SchemaType.form = some (.inputObject declared))
    {given : List (String × Json)}
    (conform : ∀ key value, OrderedMap.find? given key = some value → ∀ type result,
      coerceBy schema coerceDefault type value = .ok result → schema.Conforms type result)
    {fields : List (String × InputValue)} (subset : ∀ entry ∈ fields, entry ∈ declared)
    {results : List (String × Json)}
    (coerced : coerceFields schema coerceDefault typeName given fields = .ok results) :
    FieldsConform schema fields results := by
  induction fields generalizing results with
  | nil =>
      rw [coerceFields] at coerced
      cases coerced
      exact ⟨.slnil, by simp, by simp⟩
  | cons entry fields ih =>
      rcases entry with ⟨name, field⟩
      rw [coerceFields_cons] at coerced
      obtain ⟨value?, fieldCoerced, coerced⟩ := bind_eq_ok.mp coerced
      obtain ⟨others, othersCoerced, rfl⟩ := map_eq_ok.mp coerced
      have fieldConforms := coerceField_conform defaults isInput conform
        (subset _ List.mem_cons_self) (mapError_eq_ok.mp fieldCoerced)
      have rest := ih (fun entry member => subset entry (List.mem_cons_of_mem _ member))
        othersCoerced
      cases value? with
      | none => exact rest.absent (fieldConforms.2 rfl).1 (fieldConforms.2 rfl).2
      | some value => exact rest.given (fieldConforms.1 value rfl)

theorem coerceBy_conforms (keyed : ∀ entry ∈ schema.types, entry.2.form.IsKeyed) (type : TypeRef)
    (value : Json) : ∀ result, coerceBy schema coerceDefault type value = .ok result →
      schema.Conforms type result ∧ (result = .null → value = .null) := by
  induction type, value using coercion_induction with
  | nonNull inner value ih =>
      intro result coerced
      by_cases missing : value = .null
      · subst missing
        rw [coerceBy_missing] at coerced
        cases coerced
      · rw [coerceBy_nonNull _ _ _ missing] at coerced
        have conforms := ih result coerced
        exact ⟨.nonNull (fun isNull => missing (conforms.2 isNull)) conforms.1, conforms.2⟩
  | array item items ih =>
      intro result coerced
      rw [coerceBy_array] at coerced
      obtain ⟨results, itemsCoerced, rfl⟩ := map_eq_ok.mp coerced
      refine ⟨.list (coerceItems_conform (fun item member result run => ?_) itemsCoerced), ?_⟩
      · exact (ih item member result run).1
      · rintro ⟨⟩
  | single item value noArray ih =>
      intro result coerced
      by_cases missing : value = .null
      · subst missing
        rw [coerceBy_null _ _ rfl] at coerced
        cases coerced
        exact ⟨.null rfl, id⟩
      · rw [coerceBy_single _ _ _ missing noArray] at coerced
        obtain ⟨single, itemCoerced, rfl⟩ := map_eq_ok.mp coerced
        refine ⟨.list fun value member => ?_, by rintro ⟨⟩⟩
        rw [List.mem_singleton.mp member]
        exact (ih single itemCoerced).1
  | object name given ih =>
      intro result coerced
      refine conforms_of_coerceBy_named keyed (by simp) ?_ coerced
      rintro _ fields results ⟨⟩ isInput fieldsCoerced
      exact coerceFields_conform defaults isInput
        (fun key value found type result run => (ih key value found type result run).1)
        (fun _ member => member) fieldsCoerced
  | other name value noObject =>
      intro result coerced
      by_cases missing : value = .null
      · subst missing
        rw [coerceBy_null _ _ rfl] at coerced
        cases coerced
        exact ⟨.null rfl, id⟩
      · refine conforms_of_coerceBy_named keyed missing ?_ coerced
        exact fun isObject => absurd isObject (noObject _)

end Results

/-! ## Conforming values stay -/

section Staying

variable {schema : Schema} {coerceDefault : DefaultCoercion}

theorem coerceItems_of_each {type : TypeRef} {items : List Json}
    (stays : ∀ item ∈ items, coerceBy schema coerceDefault type item = .ok item) :
    coerceItems schema coerceDefault type items = .ok items := by
  induction items with
  | nil => rw [coerceItems]
  | cons item items ih =>
      rw [coerceItems_cons, stays item List.mem_cons_self,
        ih fun item member => stays item (List.mem_cons_of_mem _ member)]
      rfl

/-- The fields that stay are found among all that is given. They are in the order of the declared
ones, so each is at the front when its field is. -/
theorem coerceFields_of_each {typeName : String} {given stay : OrderedMap Json}
    {fields : OrderedMap InputValue} (distinct : (OrderedMap.keys fields).Nodup)
    (inOrder : (OrderedMap.keys stay).Sublist (OrderedMap.keys fields))
    (found : ∀ key ∈ OrderedMap.keys fields,
      OrderedMap.find? given key = OrderedMap.find? stay key)
    (stays : ∀ key field value, (key, field) ∈ fields → (key, value) ∈ stay →
      coerceBy schema coerceDefault field.type value = .ok value)
    (present : ∀ key field, (key, field) ∈ fields →
      field.type.isNonNull = true ∨ field.default?.isSome = true → key ∈ OrderedMap.keys stay) :
    coerceFields schema coerceDefault typeName given fields = .ok stay := by
  induction fields generalizing stay with
  | nil =>
      cases stay with
      | nil => rw [coerceFields]
      | cons entry stay => cases inOrder
  | cons entry fields ih =>
      rcases entry with ⟨name, field⟩
      rw [OrderedMap.keys_cons] at distinct inOrder found
      obtain ⟨isNew, distinctRest⟩ := List.nodup_cons.mp distinct
      rw [coerceFields_cons, coerceField, found name List.mem_cons_self]
      rcases List.sublist_cons_iff.mp inOrder with inOrder | ⟨keys, isFront, inOrder⟩
      · have absent : name ∉ OrderedMap.keys stay := fun member => isNew (inOrder.subset member)
        have optional := mt (present name field List.mem_cons_self) absent
        rw [not_or, Bool.not_eq_true, Option.not_isSome_iff_eq_none] at optional
        rw [OrderedMap.find?_eq_none_iff.mpr absent]
        simp only [coerceAbsent, optional.1, optional.2]
        rw [ih distinctRest inOrder (fun key member => found key (List.mem_cons_of_mem _ member))
          (fun key field value isField => stays key field value (List.mem_cons_of_mem _ isField))
          fun key field isField => present key field (List.mem_cons_of_mem _ isField)]
        rfl
      · cases stay with
        | nil => cases isFront
        | cons entry stay =>
            rcases entry with ⟨key, value⟩
            obtain ⟨rfl, rfl⟩ := List.cons.inj isFront
            have later (other : String) (member : other ∈ OrderedMap.keys fields) : key ≠ other :=
              fun same => isNew (same ▸ member)
            rw [OrderedMap.find?_cons, if_pos rfl]
            simp only [stays key field value List.mem_cons_self List.mem_cons_self]
            rw [ih distinctRest inOrder]
            · rfl
            · intro other member
              rw [found other (List.mem_cons_of_mem _ member), OrderedMap.find?_cons,
                if_neg (later other member)]
            · exact fun other field value isField member => stays other field value
                (List.mem_cons_of_mem _ isField) (List.mem_cons_of_mem _ member)
            · intro other field isField required
              have member := present other field (List.mem_cons_of_mem _ isField) required
              rcases List.mem_cons.mp member with same | member
              · exact absurd same.symm (later other (List.mem_map.mpr ⟨_, isField, rfl⟩))
              · exact member

theorem coerceBy_of_conforms (keyed : ∀ entry ∈ schema.types, entry.2.form.IsKeyed) {type : TypeRef}
    {value : Json} (conforms : schema.Conforms type value) :
    coerceBy schema coerceDefault type value = .ok value := by
  induction conforms with
  | null nullable => exact coerceBy_null _ _ nullable
  | nonNull present _ ih => rw [coerceBy_nonNull _ _ _ present, ih]
  | list _ ih =>
      rw [coerceBy_array, coerceItems_of_each ih]
      rfl
  | @enum name text values isEnum isValue =>
      obtain ⟨value, member, rfl⟩ := List.mem_map.mp isValue
      have known : values.any (·.name == value.name) = true :=
        List.any_eq_true.mpr ⟨value, member, beq_self_eq_true _⟩
      rw [coerceBy_named _ _ _ _ (by simp)]
      simp only [isEnum, known, if_true]
  | @object name fields given isInput inOrder _ present ih =>
      have distinct := Schema.nodup_keys_inputObject keyed isInput
      have known : (OrderedMap.keys given).find?
          (fun key => !OrderedMap.contains fields key) = none := by
        refine List.find?_eq_none.mpr fun key member => ?_
        have isKnown : OrderedMap.find? fields key ≠ none :=
          fun missing => OrderedMap.find?_eq_none_iff.mp missing (inOrder.subset member)
        simpa [OrderedMap.contains, Option.isSome_iff_ne_none] using isKnown
      have stays := @coerceFields_of_each schema coerceDefault name _ _ _ distinct inOrder
        (fun _ _ => rfl) ih present
      rw [coerceBy_named _ _ _ _ (by simp)]
      simp only [isInput, known, stays]
      rfl
  | @scalar name value isScalar present isValue =>
      rw [coerceBy_named _ _ _ _ present]
      rcases isScalar with isScalar | isUnknown
      · simp only [isScalar, coerceScalar_of_isScalarValue isValue]
      · simp only [isUnknown, Option.map_none, coerceScalar_of_isScalarValue isValue]

end Staying

/-! ## Values and arguments -/

section Values

variable {schema : Schema} (keyed : ∀ entry ∈ schema.types, entry.2.form.IsKeyed)

include keyed

/-- However many defaults may still be filled in, what is filled in conforms. -/
theorem coerceWith_conforms (defaults : List InputFieldName) {type : TypeRef} {value result : Json}
    (coerced : coerceWith schema defaults type value = .ok result) :
    schema.Conforms type result := by
  generalize isLength : defaults.length = size
  induction size using Nat.strongRecOn generalizing defaults type value result with
  | ind size ih =>
  rw [coerceWith] at coerced
  refine (coerceBy_conforms (fun {name _ _} _ result run => ?_) keyed type value result coerced).1
  by_cases unused : name ∈ defaults
  · rw [dif_pos unused] at run
    exact ih _ (isLength ▸ length_erase_lt unused) _ run rfl
  · rw [dif_neg unused] at run
    cases run

theorem coerceValue_conforms {type : TypeRef} {value result : Json}
    (coerced : coerceValue schema type value = .ok result) : schema.Conforms type result :=
  coerceWith_conforms keyed _ coerced

theorem coerceValue_of_conforms {type : TypeRef} {value : Json}
    (conforms : schema.Conforms type value) : coerceValue schema type value = .ok value := by
  rw [coerceValue, coerceWith]
  exact coerceBy_of_conforms keyed conforms

/-- An argument that is present has a value of its type, and one that is absent may be. -/
theorem coerceArgument_conforms {argument : InputValue} {given value? : Option Json}
    (coerced : coerceArgument schema argument given = .ok value?) :
    (∀ value, value? = some value → schema.Conforms argument.type value) ∧
      (argument.type.isNonNull = true ∨ argument.default?.isSome = true ∨ given.isSome = true →
        value?.isSome = true) := by
  unfold coerceArgument at coerced
  split at coerced
  · obtain ⟨result, valueCoerced, rfl⟩ := map_eq_ok.mp coerced
    refine ⟨?_, fun _ => rfl⟩
    rintro _ ⟨⟩
    exact coerceValue_conforms keyed valueCoerced
  · rename_i absent
    obtain ⟨notGiven, noDefault⟩ := Option.or_eq_none_iff.mp absent
    split at coerced
    · cases coerced
    · rename_i nullable
      cases coerced
      refine ⟨by simp, ?_⟩
      simp [nullable, notGiven, noDefault]

/-- What a resolver is given for the arguments declared: each value has the type of its argument,
and an argument that has to be there is. -/
structure ArgumentsConform (schema : Schema) (arguments : OrderedMap PlanValue)
    (bindings : Variables) (declared : List (String × InputValue)) (seen : ResolverArguments) :
    Prop where
  conform : ∀ entry ∈ seen, ∃ argument, (entry.1, argument) ∈ declared ∧
    schema.Conforms argument.type entry.2
  present : ∀ name argument, (name, argument) ∈ declared →
    argument.type.isNonNull = true ∨ argument.default?.isSome = true ∨
      (givenArgument? arguments bindings name).isSome = true →
    name ∈ OrderedMap.keys seen

variable {arguments : OrderedMap PlanValue} {bindings : Variables}

theorem ArgumentsConform.add {declared : List (String × InputValue)} {before after : ResolverArguments}
    (conforms : ArgumentsConform schema arguments bindings declared before)
    {entry : String × InputValue}
    (added : addArgument schema arguments bindings before entry = .ok after) :
    ArgumentsConform schema arguments bindings (declared ++ [entry]) after := by
  rcases entry with ⟨name, argument⟩
  have earlier (entry : String × Json) (member : entry ∈ before) : ∃ argument',
      (entry.1, argument') ∈ declared ++ [(name, argument)] ∧
        schema.Conforms argument'.type entry.2 := by
    obtain ⟨argument', isDeclared, hasType⟩ := conforms.conform entry member
    exact ⟨argument', List.mem_append_left _ isDeclared, hasType⟩
  rw [addArgument] at added
  split at added
  · rename_i run
    obtain ⟨-, needed⟩ := coerceArgument_conforms keyed run
    cases added
    refine ⟨earlier, fun other argument' isDeclared required => ?_⟩
    rcases List.mem_append.mp isDeclared with isDeclared | isLast
    · exact conforms.present other argument' isDeclared required
    · cases List.mem_singleton.mp isLast
      cases needed required
  · rename_i value run
    obtain ⟨hasType, -⟩ := coerceArgument_conforms keyed run
    cases added
    refine ⟨fun entry member => ?_, fun other argument' isDeclared required => ?_⟩
    · rcases OrderedMap.mem_insert member with rfl | member
      · exact ⟨argument, by simp, hasType value rfl⟩
      · exact earlier entry member
    · rw [OrderedMap.mem_keys_insert_iff]
      rcases List.mem_append.mp isDeclared with isDeclared | isLast
      · exact .inl (conforms.present other argument' isDeclared required)
      · cases List.mem_singleton.mp isLast
        exact .inr rfl
  · cases added

theorem ArgumentsConform.addAll {declared others : List (String × InputValue)}
    {before after : ResolverArguments}
    (conforms : ArgumentsConform schema arguments bindings declared before)
    (added : others.foldlM (addArgument schema arguments bindings) before = .ok after) :
    ArgumentsConform schema arguments bindings (declared ++ others) after := by
  induction others generalizing declared before with
  | nil =>
      cases added
      rwa [List.append_nil]
  | cons entry others ih =>
      rw [List.foldlM_cons] at added
      obtain ⟨between, first, added⟩ := bind_eq_ok.mp added
      have rest := ih (conforms.add keyed first) added
      rwa [List.append_assoc, List.singleton_append] at rest

end Values

namespace Schema

/-- Coercion gives the values of a type and leaves each of them as it is, and a resolver is given
arguments of their types. -/
theorem coercion_conforms {schema : Schema}
    (keyed : ∀ entry ∈ schema.types, entry.2.form.IsKeyed) :
    (∀ type value result, coerceValue schema type value = .ok result →
      schema.Conforms type result) ∧
    (∀ type value, schema.Conforms type value → coerceValue schema type value = .ok value) ∧
    (∀ type result, (∃ value, coerceValue schema type value = .ok result) ↔
      coerceValue schema type result = .ok result) ∧
    ∀ (field : OutputField) (arguments : OrderedMap PlanValue) (bindings : Variables)
      (seen : ResolverArguments), (OrderedMap.keys field.arguments).Nodup →
      coerceArguments schema field arguments bindings = .ok seen →
      (∀ name value, (name, value) ∈ seen → ∃ argument,
        OrderedMap.find? field.arguments name = some argument ∧
          schema.Conforms argument.type value) ∧
      ∀ name argument, OrderedMap.find? field.arguments name = some argument →
        argument.type.isNonNull = true ∨ argument.default?.isSome = true ∨
          (givenArgument? arguments bindings name).isSome = true →
        name ∈ OrderedMap.keys seen := by
  refine ⟨fun type value result => coerceValue_conforms keyed,
    fun type value => coerceValue_of_conforms keyed, fun type result => ⟨?_, fun same => ⟨_, same⟩⟩,
    fun field arguments bindings seen distinct coerced => ?_⟩
  · rintro ⟨value, coerced⟩
    exact coerceValue_of_conforms keyed (coerceValue_conforms keyed coerced)
  · have conforms : ArgumentsConform schema arguments bindings ([] ++ field.arguments) seen :=
      ArgumentsConform.addAll keyed ⟨by simp, by simp⟩ coerced
    rw [List.nil_append] at conforms
    refine ⟨fun name value member => ?_, fun name argument found required => ?_⟩
    · obtain ⟨argument, declared, hasType⟩ := conforms.conform (name, value) member
      exact ⟨argument, OrderedMap.find?_of_mem distinct declared, hasType⟩
    · exact conforms.present name argument (OrderedMap.mem_of_find? found) required

namespace FilterInput

/-- The fields of the input type ask for a list of identifiers, fill in a number and take a word. -/
def source : String :=
  "enum Color \x7b RED \x7d input Filter \x7b ids: [ID!]! minAge: Int = 18 color: Color \x7d
    type Query \x7b f(filter: Filter): Int \x7d"

/-- The fields in another order, a single identifier as a number, and one field not at all. -/
def given : Json :=
  .object [("color", .string "RED"), ("ids", .int 7)]

def coerced : Json :=
  .object [("ids", .array [.string "7"]), ("minAge", .int 18), ("color", .string "RED")]

theorem evaluation : (ofSource source).toOption.map
    (fun schema => coerceValue schema (.named "Filter") given) = some (.ok coerced) := by
  cbv

theorem coerced_conforms : ∃ schema : Schema,
    (∀ entry ∈ schema.types, entry.2.form.IsKeyed) ∧
      coerceValue schema (.named "Filter") given = .ok coerced ∧
      schema.Conforms (.named "Filter") coerced ∧
      coerceValue schema (.named "Filter") coerced = .ok coerced := by
  have evaluated := evaluation
  cases accepted : ofSource source with
  | error error =>
      rw [accepted] at evaluated
      cases evaluated
  | ok schema =>
      rw [accepted] at evaluated
      have keyed := (ofSource_isKeyed accepted).forms
      have result : coerceValue schema (.named "Filter") given = .ok coerced :=
        Option.some.inj evaluated
      obtain ⟨conforms, stays, -⟩ := coercion_conforms keyed
      exact ⟨schema, keyed, result, conforms _ _ _ result, stays _ _ (conforms _ _ _ result)⟩

end FilterInput

end Schema

end GraphQL

import GraphQL.Proofs.OrderedMap
import GraphQL.Schema.Definition

/-!
# Accepted schemas

What holds of every schema that is read from a source: types are found under their own names, no
name is given twice, all references lead to types, and operations start at object types.
-/

namespace GraphQL

/-! ## Results -/

section

variable {α β ε : Type}

theorem bind_eq_ok {first : Except ε α} {next : α → Except ε β} {result : β} :
    (first >>= next) = .ok result ↔ ∃ value, first = .ok value ∧ next value = .ok result := by
  cases first with
  | error fault => simp [bind, Except.bind]
  | ok value => simp [bind, Except.bind]

theorem pure_eq_ok {value result : α} :
    (pure value : Except ε α) = .ok result ↔ result = value := by
  simp only [pure, Except.pure, Except.ok.injEq, @eq_comm _ value]

theorem forM_eq_ok {items : List α} {check : α → Except ε Unit} :
    items.forM check = .ok () ↔ ∀ item ∈ items, check item = .ok () := by
  induction items with
  | nil => simp [List.forM, pure_eq_ok]
  | cons first rest ih =>
      rw [List.forM, bind_eq_ok, ih, List.forall_mem_cons]
      constructor
      · rintro ⟨_, passes, others⟩
        exact ⟨passes, others⟩
      · rintro ⟨passes, others⟩
        exact ⟨_, passes, others⟩

/-- A result that passes a test is there. -/
theorem exists_ok_of_any {run : Except ε α} {test : α → Bool}
    (passes : run.toOption.any test = true) : ∃ value, run = .ok value ∧ test value = true := by
  cases run with
  | error fault => cases passes
  | ok value => exact ⟨value, rfl, passes⟩

theorem eq_ok_of_toBool {run : Except ε α} (succeeds : run.toBool = true) (other : α) :
    run = .ok (run.toOption.getD other) := by
  cases run with
  | error fault => cases succeeds
  | ok value => rfl

end

namespace Schema

/-- The types of a schema and their fields stand under their own names, each type once, and types
refer to one another. -/
structure IsWellFormed (schema : Schema) : Prop where
  distinct : (OrderedMap.keys schema.types).Nodup
  named : ∀ entry ∈ schema.types, entry.2.name = entry.1
  fieldsNamed : ∀ entry ∈ schema.types, ∀ field ∈ entry.2.fields?.getD [], field.2.name = field.1
  stringKnown : (schema.type? "String").isSome
  referencesKnown : ∀ entry ∈ schema.types, ∀ reference ∈ references entry.1 entry.2,
    (schema.type? reference.1).isSome
  rootsAreObjects : ∀ kind name, schema.rootTypeName? kind = some name →
    schema.isObjectType name = true

theorem name_of_mem_outputFields {definitions : List FieldDefinition}
    {field : String × OutputField} (member : field ∈ outputFields definitions) :
    field.2.name = field.1 := by
  rcases List.mem_map.mp (OrderedMap.mem_of_mem_ofPairs member) with ⟨definition, _, rfl⟩
  rfl

theorem fieldsNamed_toSchemaType (definition : TypeDefinition) :
    ∀ field ∈ definition.toSchemaType.fields?.getD [], field.2.name = field.1 := by
  intro field member
  unfold TypeDefinition.toSchemaType SchemaType.fields? at member
  cases body : definition.body with
  | object interfaces fields =>
      simp only [body, TypeBody.toForm, Option.getD_some] at member
      exact name_of_mem_outputFields member
  | interface interfaces fields =>
      simp only [body, TypeBody.toForm, Option.getD_some] at member
      exact name_of_mem_outputFields member
  | union members => simp [body, TypeBody.toForm] at member
  | enum values => simp [body, TypeBody.toForm] at member
  | input fields => simp [body, TypeBody.toForm] at member
  | scalar => simp [body, TypeBody.toForm] at member

/-- What holds of a schema, and still does whenever one of the types or directives is added, holds
after all definitions. -/
theorem addDefinitions_preserves (holds : Schema → Prop) {definitions : List Definition}
    (addsType : ∀ schema definition, .type definition ∈ definitions → holds schema →
      holds (schema.addType definition.toSchemaType))
    (addsDirective : ∀ schema definition, .directive definition ∈ definitions → holds schema →
      holds (schema.addDirective definition.toSchemaDirective))
    {schema defined : Schema} (added : addDefinitions schema definitions = .ok defined)
    (start : holds schema) : holds defined := by
  induction definitions generalizing schema with
  | nil =>
      cases added
      exact start
  | cons definition rest ih =>
      have rests {now : Schema} (added : addDefinitions now rest = .ok defined)
          (start : holds now) : holds defined :=
        ih (fun schema type member => addsType schema type (List.mem_cons_of_mem _ member))
          (fun schema directive member =>
            addsDirective schema directive (List.mem_cons_of_mem _ member)) added start
      cases definition with
      | schema definition => exact rests added start
      | type definition =>
          simp only [addDefinitions] at added
          split at added
          · cases added
          · exact rests added (addsType schema definition List.mem_cons_self start)
      | directive definition =>
          exact rests added (addsDirective schema definition List.mem_cons_self start)
      | operation definition => cases added
      | fragment definition => cases added

theorem addDefinitions_types {definitions : List Definition} {schema defined : Schema}
    (added : addDefinitions schema definitions = .ok defined)
    (distinct : (OrderedMap.keys schema.types).Nodup)
    (named : ∀ entry ∈ schema.types, entry.2.name = entry.1)
    (fieldsNamed : ∀ entry ∈ schema.types, ∀ field ∈ entry.2.fields?.getD [],
      field.2.name = field.1)
    (stringKnown : (schema.type? "String").isSome) :
    (OrderedMap.keys defined.types).Nodup ∧ (∀ entry ∈ defined.types, entry.2.name = entry.1) ∧
      (∀ entry ∈ defined.types, ∀ field ∈ entry.2.fields?.getD [], field.2.name = field.1) ∧
      (defined.type? "String").isSome := by
  refine addDefinitions_preserves (fun schema => (OrderedMap.keys schema.types).Nodup ∧
    (∀ entry ∈ schema.types, entry.2.name = entry.1) ∧
      (∀ entry ∈ schema.types, ∀ field ∈ entry.2.fields?.getD [], field.2.name = field.1) ∧
      (schema.type? "String").isSome) ?_ (fun _ _ _ kept => kept) added
    ⟨distinct, named, fieldsNamed, stringKnown⟩
  rintro schema definition - ⟨distinct, named, fieldsNamed, stringKnown⟩
  refine ⟨OrderedMap.nodup_keys_insert distinct _ _, ?_, ?_,
    OrderedMap.isSome_find?_insert stringKnown⟩
  · intro entry member
    rcases OrderedMap.mem_insert member with rfl | member
    · rfl
    · exact named entry member
  · intro entry member
    rcases OrderedMap.mem_insert member with rfl | member
    · exact fieldsNamed_toSchemaType definition
    · exact fieldsNamed entry member

theorem setRoots_types (schema : Schema) (operations : List RootOperation) :
    (setRoots schema operations).types = schema.types := by
  unfold setRoots
  induction operations generalizing schema with
  | nil => rfl
  | cons operation rest ih =>
      rw [List.foldl_cons, ih]
      unfold withRoot
      cases operation.kind <;> rfl

theorem withConventionalRoots_setRoots_types (schema : Schema) (operations : List RootOperation) :
    (setRoots schema operations).withConventionalRoots.types = schema.types :=
  setRoots_types schema operations

/-! ## What is accepted -/

theorem checkReferences_eq_ok {schema : Schema} : schema.checkReferences = .ok () ↔
    ∀ entry ∈ schema.types, ∀ reference ∈ references entry.1 entry.2,
      (schema.type? reference.1).isSome := by
  have asks (reference : String × String) :
      (if (schema.type? reference.1).isSome then .ok ()
        else .error (.unknownType reference.1 reference.2) : Except SchemaError Unit) = .ok () ↔
      (schema.type? reference.1).isSome := by
    split <;> simp [*]
  simp only [checkReferences, forM_eq_ok, List.forall_mem_flatMap, asks]

theorem checkRoots_eq_ok {schema : Schema} : schema.checkRoots = .ok () ↔
    ∀ kind name, schema.rootTypeName? kind = some name → schema.isObjectType name = true := by
  rw [checkRoots, forM_eq_ok]
  constructor
  · intro passes kind name isRoot
    have asked := passes kind (by cases kind <;> simp)
    simp only [isRoot] at asked
    by_contra other
    rw [if_neg other] at asked
    cases asked
  · intro objects kind _
    cases isRoot : schema.rootTypeName? kind with
    | none => rfl
    | some name => exact if_pos (objects kind name isRoot)

theorem ofDefinitions_eq_ok {definitions : List Definition} {schema : Schema} :
    ofDefinitions definitions = .ok schema ↔ ∃ defined,
      addDefinitions initial definitions = .ok defined ∧
      schema = (setRoots defined (rootOperations definitions)).withConventionalRoots ∧
      schema.checkReferences = .ok () ∧ schema.checkRoots = .ok () := by
  simp only [ofDefinitions, bind_eq_ok, pure_eq_ok]
  constructor
  · rintro ⟨defined, added, _, references, _, roots, rfl⟩
    exact ⟨defined, added, rfl, references, roots⟩
  · rintro ⟨defined, added, rfl, references, roots⟩
    exact ⟨defined, added, (), references, (), roots, rfl⟩

theorem ofSource_eq_ok {source : String} {schema : Schema} :
    ofSource source = .ok schema ↔ ∃ parsed, Document.parse source = .ok parsed ∧
      parsed.hasErrors = false ∧ ofDefinitions parsed.document.definitions = .ok schema := by
  unfold ofSource
  cases Document.parse source with
  | error fault => simp
  | ok parsed => cases errors : parsed.hasErrors <;> simp [errors]

theorem ofDefinitions_isWellFormed {definitions : List Definition} {schema : Schema}
    (defines : ofDefinitions definitions = .ok schema) : schema.IsWellFormed := by
  rcases ofDefinitions_eq_ok.mp defines with ⟨defined, added, rfl, references, roots⟩
  rcases addDefinitions_types added (by decide) (by decide) (by decide) (by decide) with
    ⟨distinct, named, fieldsNamed, stringKnown⟩
  have types := withConventionalRoots_setRoots_types defined (rootOperations definitions)
  refine ⟨?_, ?_, ?_, ?_, checkReferences_eq_ok.mp references, checkRoots_eq_ok.mp roots⟩
  · rwa [types]
  · rwa [types]
  · rwa [types]
  · rwa [type?, types]

/-- Every schema that is read from a source is well-formed. -/
theorem ofSource_isWellFormed {source : String} {schema : Schema}
    (accepted : ofSource source = .ok schema) : schema.IsWellFormed := by
  rcases ofSource_eq_ok.mp accepted with ⟨parsed, _, _, defines⟩
  exact ofDefinitions_isWellFormed defines

end Schema

end GraphQL

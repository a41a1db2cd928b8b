import GraphQL.Proofs.Schema.Conforming
import GraphQL.Proofs.Schema.Owning

/-!
# References of a schema

Types refer to types: fields, arguments and input fields have a type, types implement interfaces and
unions have members. A source is accepted exactly if all names at these places lead to types of the
schema and all root types are object types. Arguments of directives have types as well, and nothing
asks for those, so a schema can be accepted in which one of them leads nowhere.
-/

namespace GraphQL

namespace Schema

/-- The name is the name of a type. -/
def Resolves (schema : Schema) (name : String) : Prop :=
  (schema.type? name).isSome = true

/-- The types of arguments and input fields resolve. -/
def InputsResolve (schema : Schema) (inputs : OrderedMap InputValue) : Prop :=
  ∀ input ∈ inputs, schema.Resolves input.2.type.innermost

/-- Whatever a type refers to resolves, and every root type that is set is an object type. -/
structure ReferencesResolve (schema : Schema) : Prop where
  fields : ∀ entry ∈ schema.types, ∀ field ∈ entry.2.fields?.getD [],
    schema.Resolves field.2.type.innermost
  arguments : ∀ entry ∈ schema.types, ∀ field ∈ entry.2.fields?.getD [],
    schema.InputsResolve field.2.arguments
  inputFields : ∀ entry ∈ schema.types, ∀ fields, entry.2.form = .inputObject fields →
    schema.InputsResolve fields
  interfaces : ∀ entry ∈ schema.types, ∀ name ∈ entry.2.interfaces, schema.Resolves name
  members : ∀ entry ∈ schema.types, ∀ members, entry.2.form = .union members →
    ∀ name ∈ members, schema.Resolves name
  roots : ∀ kind name, schema.rootTypeName? kind = some name → schema.isObjectType name = true

/-- Every name of a type resolves, wherever it stands in the schema. -/
structure NamesResolve (schema : Schema) : Prop extends schema.ReferencesResolve where
  directives : ∀ directive ∈ schema.directives, schema.InputsResolve directive.2.arguments

/-! ## What is checked -/

section

variable {schema : Schema} {name : String} {type : SchemaType}

/-- The names that one type refers to. -/
theorem references_resolve_iff :
    (∀ reference ∈ references name type, schema.Resolves reference.1) ↔
      (∀ field ∈ type.fields?.getD [], schema.Resolves field.2.type.innermost) ∧
      (∀ field ∈ type.fields?.getD [], schema.InputsResolve field.2.arguments) ∧
      (∀ fields, type.form = .inputObject fields → schema.InputsResolve fields) ∧
      (∀ interface ∈ type.interfaces, schema.Resolves interface) ∧
      ∀ members, type.form = .union members → ∀ member ∈ members, schema.Resolves member := by
  have ofFields (fields : OrderedMap OutputField) (owner : OutputField → String) :
      (∀ reference ∈ fields.values.flatMap fun field => (field.type.innermost, owner field)
          :: field.arguments.values.map fun argument => (argument.type.innermost, owner field),
        schema.Resolves reference.1) ↔
      (∀ field ∈ fields, schema.Resolves field.2.type.innermost) ∧
        ∀ field ∈ fields, schema.InputsResolve field.2.arguments := by
    simp only [List.forall_mem_flatMap, OrderedMap.values, List.forall_mem_map,
      List.forall_mem_cons, forall_and, InputsResolve]
  unfold references SchemaType.fields? SchemaType.interfaces
  cases form : type.form with
  | scalar => simp
  | object fields interfaces =>
      simp only [List.forall_mem_append, List.forall_mem_map, ofFields]
      simp [and_comm, and_left_comm]
  | interface fields interfaces =>
      simp only [List.forall_mem_append, List.forall_mem_map, ofFields]
      simp [and_comm, and_left_comm]
  | union members => simp
  | enum values => simp
  | inputObject fields =>
      simp only [OrderedMap.values, List.map_map, List.forall_mem_map, InputsResolve]
      simp

/-- The checks ask for the references of types and for the root types, and for nothing else. -/
theorem referencesResolve_iff : schema.ReferencesResolve ↔
    schema.checkReferences = .ok () ∧ schema.checkRoots = .ok () := by
  have checks : schema.checkReferences = .ok () ↔ ∀ entry ∈ schema.types,
      ∀ reference ∈ references entry.1 entry.2, schema.Resolves reference.1 :=
    checkReferences_eq_ok
  simp only [checks, checkRoots_eq_ok, references_resolve_iff]
  constructor
  · rintro ⟨fields, arguments, inputFields, interfaces, members, roots⟩
    refine ⟨fun entry member => ?_, roots⟩
    exact ⟨fields entry member, arguments entry member, inputFields entry member,
      interfaces entry member, members entry member⟩
  · rintro ⟨references, roots⟩
    constructor
    · exact fun entry member => (references entry member).1
    · exact fun entry member => (references entry member).2.1
    · exact fun entry member => (references entry member).2.2.1
    · exact fun entry member => (references entry member).2.2.2.1
    · exact fun entry member => (references entry member).2.2.2.2
    · exact roots

end

/-- Definitions that can be added one by one are accepted exactly if the references of types
resolve in the schema that they make. -/
theorem ofDefinitions_eq_ok_iff {definitions : List Definition} {schema : Schema} :
    ofDefinitions definitions = .ok schema ↔ ∃ defined,
      addDefinitions initial definitions = .ok defined ∧
      schema = (setRoots defined (rootOperations definitions)).withConventionalRoots ∧
      schema.ReferencesResolve := by
  simp only [referencesResolve_iff]
  exact ofDefinitions_eq_ok

/-! ## Directives -/

/-- A type stays known under its name, whatever is defined later. -/
theorem Resolves.addDefinitions {definitions : List Definition} {schema defined : Schema}
    {name : String} (added : addDefinitions schema definitions = .ok defined)
    (resolves : schema.Resolves name) : defined.Resolves name :=
  addDefinitions_preserves (Resolves · name)
    (fun _ _ _ resolves => OrderedMap.isSome_find?_insert resolves) (fun _ _ _ resolves => resolves)
    added resolves

/-- The types in the arguments of built-in directives are built in. -/
theorem exists_inputType_of_mem_initial {directive : String × SchemaDirective}
    (builtIn : directive ∈ initial.directives) {argument : String × InputValue}
    (member : argument ∈ directive.2.arguments) :
    argument.2.type.innermost = "Boolean" ∨ argument.2.type.innermost = "String" := by
  simp only [initial, conditionDirective, deprecatedDirective, List.mem_cons, List.not_mem_nil,
    or_false] at builtIn
  rcases builtIn with rfl | rfl | rfl
  · cases List.mem_singleton.mp member
    exact .inl rfl
  · cases List.mem_singleton.mp member
    exact .inl rfl
  · cases List.mem_singleton.mp member
    exact .inr rfl

/-- In an accepted schema all that types refer to resolves, and root types are object types. So every
name of a type resolves exactly if those in the arguments of directives that are not built in do. -/
theorem names_resolve_but_directives {source : String} {schema : Schema}
    (accepted : ofSource source = .ok schema) :
    schema.ReferencesResolve ∧
      (schema.NamesResolve ↔ ∀ directive ∈ schema.directives, directive ∉ initial.directives →
        schema.InputsResolve directive.2.arguments) := by
  rcases ofSource_eq_ok.mp accepted with ⟨parsed, _, _, defines⟩
  rcases ofDefinitions_eq_ok_iff.mp defines with ⟨defined, added, made, resolve⟩
  refine ⟨resolve, fun all directive member _ => all.directives directive member, ?_⟩
  intro own
  refine ⟨resolve, fun directive member => ?_⟩
  by_cases builtIn : directive ∈ initial.directives
  · have stays {name : String} (known : initial.Resolves name) : schema.Resolves name := by
      have kept : defined.Resolves name := known.addDefinitions added
      unfold Resolves type? at kept ⊢
      rwa [made, withConventionalRoots_setRoots_types]
    intro argument isArgument
    rcases exists_inputType_of_mem_initial builtIn isArgument with isBoolean | isString
    · rw [isBoolean]
      exact stays rfl
    · rw [isString]
      exact stays rfl
  · exact own directive member builtIn

namespace ResolvedNames

/-- Types refer to types that come later, and so does a directive. -/
def source : String :=
  "directive @near(to: Place) on FIELD
  type Query implements Named \x7b at(to: [Place!]): Found \x7d union Found = Query
  interface Named \x7b at: Found \x7d input Place \x7b of: Place \x7d"

theorem evaluation : (ofSource source).toOption.any (fun schema =>
    schema.directives.all fun directive => directive.2.arguments.all fun argument =>
      (schema.type? argument.2.type.innermost).isSome) = true := by
  decide +kernel

theorem places_resolve : ∃ schema, ofSource source = .ok schema ∧ schema.NamesResolve := by
  rcases exists_ok_of_any evaluation with ⟨schema, accepted, known⟩
  simp only [List.all_eq_true] at known
  refine ⟨schema, accepted, (names_resolve_but_directives accepted).2.mpr ?_⟩
  intro directive member _ argument isArgument
  exact known directive member argument isArgument

end ResolvedNames

namespace UnknownArgument

/-- Nothing defines the type of the argument. -/
def source : String :=
  "directive @near(place: Place) on FIELD type Query \x7b a: Int \x7d"

theorem evaluation : (ofSource source).toOption.any (fun schema =>
    schema.directives.any fun directive => directive.2.arguments.any fun argument =>
      (schema.type? argument.2.type.innermost).isNone) = true := by
  decide +kernel

theorem accepted_unresolved : ∃ schema, ofSource source = .ok schema ∧ ¬schema.NamesResolve := by
  rcases exists_ok_of_any evaluation with ⟨schema, accepted, evaluated⟩
  simp only [List.any_eq_true] at evaluated
  rcases evaluated with ⟨directive, member, argument, isArgument, unknown⟩
  refine ⟨schema, accepted, fun all => ?_⟩
  have known := all.directives directive member argument isArgument
  rw [Resolves, Option.isSome_iff_ne_none] at known
  exact known (Option.isNone_iff_eq_none.mp unknown)

end UnknownArgument

end Schema

end GraphQL

import GraphQL.Proofs.Schema.Definition
import GraphQL.Schema.Printer
import Mathlib.Data.List.Forall2

/-!
# When printing succeeds

Printing fails only at a default that is no value of its type, so a schema is printed exactly if all
of its parts are, and its text is made of theirs.
-/

namespace GraphQL

section

variable {α β ε : Type}

theorem mapM_eq_ok {make : α → Except ε β} {items : List α} {results : List β} :
    items.mapM make = .ok results ↔
      List.Forall₂ (fun item result => make item = .ok result) items results := by
  induction items generalizing results with
  | nil =>
      rw [List.mapM_nil, pure_eq_ok, List.forall₂_nil_left_iff]
  | cons item items ih =>
      simp only [List.mapM_cons, bind_eq_ok, pure_eq_ok, ih, List.forall₂_cons_left_iff]
      constructor
      · rintro ⟨first, made, others, each, rfl⟩
        exact ⟨first, others, made, each, rfl⟩
      · rintro ⟨first, others, made, each, rfl⟩
        exact ⟨first, made, others, each, rfl⟩

end

namespace Schema

variable {schema : Schema}

theorem inputValueText_eq_ok {value : InputValue} {text : String} :
    schema.inputValueText value = .ok text ↔
      (value.default? = none ∧ text = value.name ++ ": " ++ value.type.text) ∨
      ∃ default literal, value.default? = some default ∧
        schema.defaultLiteral default value.type = .ok literal ∧
        text = value.name ++ ": " ++ value.type.text ++ " = " ++ literal := by
  unfold inputValueText
  cases value.default? with
  | none => simp [pure, Except.pure, @eq_comm _ text]
  | some default =>
      simp only [bind_eq_ok, pure_eq_ok]
      simp

theorem argumentsText_eq_ok {arguments : OrderedMap InputValue} {text : String} :
    schema.argumentsText arguments = .ok text ↔
      (arguments = [] ∧ text = "") ∨
      arguments ≠ [] ∧ ∃ texts,
        List.Forall₂ (fun value text => schema.inputValueText value = .ok text)
          (OrderedMap.sortedByKey arguments).values texts ∧
        text = "(" ++ ", ".intercalate texts ++ ")" := by
  unfold argumentsText
  split
  · rename_i isEmpty
    simp [pure_eq_ok, List.isEmpty_iff.mp isEmpty]
  · rename_i filled
    have filled : arguments ≠ [] := fun none => filled (List.isEmpty_iff.mpr none)
    simp only [bind_eq_ok, pure_eq_ok, mapM_eq_ok]
    simp [filled]

theorem outputFieldLines_eq_ok {field : OutputField} {lines : List String} :
    schema.outputFieldLines field = .ok lines ↔
      ∃ arguments, schema.argumentsText field.arguments = .ok arguments ∧
        lines = descriptionLines "  " field.description ++ ["  " ++ field.name ++ arguments ++ ": " ++
          field.type.text ++ deprecationText field.deprecation] := by
  simp only [outputFieldLines, bind_eq_ok, pure_eq_ok]

theorem inputFieldLines_eq_ok {field : InputValue} {lines : List String} :
    schema.inputFieldLines field = .ok lines ↔
      ∃ text, schema.inputValueText field = .ok text ∧
        lines = descriptionLines "  " field.description ++ ["  " ++ text] := by
  simp only [inputFieldLines, bind_eq_ok, pure_eq_ok]

theorem outputTypeLines_eq_ok {heading : String} {fields : OrderedMap OutputField}
    {lines : List String} :
    schema.outputTypeLines heading fields = .ok lines ↔
      ∃ blocks, List.Forall₂ (fun field lines => schema.outputFieldLines field = .ok lines)
          (OrderedMap.sortedByKey fields).values blocks ∧
        lines = braced heading blocks.flatten := by
  simp only [outputTypeLines, bind_eq_ok, pure_eq_ok, mapM_eq_ok]

theorem formLines_inputObject_eq_ok {name : String} {fields : OrderedMap InputValue}
    {lines : List String} :
    schema.formLines name (.inputObject fields) = .ok lines ↔
      ∃ blocks, List.Forall₂ (fun field lines => schema.inputFieldLines field = .ok lines)
          (OrderedMap.sortedByKey fields).values blocks ∧
        lines = braced ("input " ++ name) blocks.flatten := by
  simp only [formLines, bind_eq_ok, pure_eq_ok, mapM_eq_ok]

theorem typeLines_eq_ok {type : SchemaType} {lines : List String} :
    schema.typeLines type = .ok lines ↔
      ∃ others, schema.formLines type.name type.form = .ok others ∧
        lines = descriptionLines "" type.description ++ others := by
  simp only [typeLines, bind_eq_ok, pure_eq_ok]

/-- The line that defines a directive. -/
def directiveLine (directive : SchemaDirective) (arguments : String) : String :=
  "directive @" ++ directive.name ++ arguments ++
    (if directive.repeatable then " repeatable" else "") ++ " on " ++
    " | ".intercalate (directive.locations.map DirectiveLocation.text)

theorem directiveLines_eq_ok {directive : SchemaDirective} {lines : List String} :
    schema.directiveLines directive = .ok lines ↔
      ∃ arguments, schema.argumentsText directive.arguments = .ok arguments ∧
        lines = descriptionLines "" directive.description ++ [directiveLine directive arguments] := by
  simp only [directiveLines, directiveLine, bind_eq_ok, pure_eq_ok]

/-- A source of blocks of lines. -/
def blocksText (blocks : List (List String)) : String :=
  "\n\n".intercalate (blocks.map ("\n".intercalate ·)) ++ "\n"

theorem print_eq_ok {text : String} :
    schema.print = .ok text ↔
      ∃ directives types,
        List.Forall₂ (fun directive lines => schema.directiveLines directive = .ok lines)
          schema.ownDirectives directives ∧
        List.Forall₂ (fun type lines => schema.typeLines type = .ok lines) schema.ownTypes types ∧
        text = blocksText (schema.rootLines ++ directives ++ types) := by
  simp only [print, blocksText, bind_eq_ok, pure_eq_ok, mapM_eq_ok]
  constructor
  · rintro ⟨directives, directed, types, typed, rfl⟩
    exact ⟨directives, types, directed, typed, rfl⟩
  · rintro ⟨directives, types, directed, typed, rfl⟩
    exact ⟨directives, directed, types, typed, rfl⟩

end Schema

/-! ## Printing fails only at a default -/

/-- The input values that a type declares. -/
def TypeForm.inputs : TypeForm → List InputValue
  | object fields _ => (OrderedMap.values fields).flatMap fun field => field.arguments.values
  | interface fields _ => (OrderedMap.values fields).flatMap fun field => field.arguments.values
  | inputObject fields => OrderedMap.values fields
  | _ => []

namespace Schema

theorem mem_ownTypes {schema : Schema} {type : SchemaType} : type ∈ schema.ownTypes ↔
    type ∈ schema.types.values ∧ (!builtInScalars.contains type.name) = true := by
  rw [ownTypes, List.mem_mergeSort, List.mem_filter]

theorem mem_ownDirectives {schema : Schema} {directive : SchemaDirective} :
    directive ∈ schema.ownDirectives ↔ directive ∈ schema.directives.values ∧
      (!builtInDirectives.contains directive.name) = true := by
  rw [ownDirectives, List.mem_mergeSort, List.mem_filter]

/-- The input values that the schema declares beside the built-in ones. -/
def ownInputs (schema : Schema) : List InputValue :=
  schema.ownDirectives.flatMap (fun directive => directive.arguments.values) ++
    schema.ownTypes.flatMap fun type => type.form.inputs

/-- The value can be printed. -/
def Prints (schema : Schema) (value : InputValue) : Prop :=
  ∃ text, schema.inputValueText value = .ok text

/-- What is made of something exists with it. -/
theorem exists_made_iff {α β : Type} {holds : α → Prop} {make : α → β} :
    (∃ result item, holds item ∧ result = make item) ↔ ∃ item, holds item :=
  ⟨fun ⟨_, item, isHeld, _⟩ => ⟨item, isHeld⟩, fun ⟨item, isHeld⟩ => ⟨_, item, isHeld, rfl⟩⟩

theorem exists_forall₂_iff {α β ε : Type} {make : α → Except ε β} {items : List α} :
    (∃ results, List.Forall₂ (fun item result => make item = .ok result) items results) ↔
      ∀ item ∈ items, ∃ result, make item = .ok result := by
  induction items with
  | nil => simp
  | cons item items ih =>
      rw [List.forall_mem_cons, ← ih]
      constructor
      · rintro ⟨_, _ | ⟨first, others⟩⟩
        exact ⟨⟨_, first⟩, _, others⟩
      · rintro ⟨⟨_, first⟩, _, others⟩
        exact ⟨_, .cons first others⟩

/-- In whatever order the values are taken. -/
theorem exists_forall₂_sortedByKey_iff {α β ε : Type} {make : α → Except ε β}
    {map : OrderedMap α} :
    (∃ results, List.Forall₂ (fun item result => make item = .ok result)
        (OrderedMap.sortedByKey map).values results) ↔
      ∀ value ∈ map.values, ∃ result, make value = .ok result := by
  rw [exists_forall₂_iff]
  exact forall_congr' fun value => by rw [(OrderedMap.values_sortedByKey_perm map).mem_iff]

section

variable {schema : Schema}

theorem exists_argumentsText {arguments : OrderedMap InputValue} :
    (∃ text, schema.argumentsText arguments = .ok text) ↔
      ∀ value ∈ arguments.values, schema.Prints value := by
  simp only [Prints, ← exists_forall₂_sortedByKey_iff, argumentsText_eq_ok]
  constructor
  · rintro ⟨_, ⟨rfl, _⟩ | ⟨_, texts, each, _⟩⟩
    · exact exists_forall₂_sortedByKey_iff.mpr (by simp [OrderedMap.values])
    · exact ⟨texts, each⟩
  · rintro ⟨texts, each⟩
    by_cases none : arguments = []
    · exact ⟨_, .inl ⟨none, rfl⟩⟩
    · exact ⟨_, .inr ⟨none, texts, each, rfl⟩⟩

theorem exists_outputFieldLines {field : OutputField} :
    (∃ lines, schema.outputFieldLines field = .ok lines) ↔
      ∀ value ∈ field.arguments.values, schema.Prints value := by
  simp only [outputFieldLines_eq_ok, exists_made_iff, exists_argumentsText]

theorem exists_inputFieldLines {field : InputValue} :
    (∃ lines, schema.inputFieldLines field = .ok lines) ↔ schema.Prints field := by
  simp only [inputFieldLines_eq_ok, exists_made_iff]
  rfl

theorem exists_outputTypeLines {heading : String} {fields : OrderedMap OutputField} :
    (∃ lines, schema.outputTypeLines heading fields = .ok lines) ↔
      ∀ value ∈ fields.values.flatMap fun field => field.arguments.values, schema.Prints value := by
  simp only [outputTypeLines_eq_ok, exists_made_iff, exists_forall₂_sortedByKey_iff,
    exists_outputFieldLines, List.mem_flatMap]
  exact ⟨fun all value ⟨field, member, given⟩ => all field member value given,
    fun all field member value given => all value ⟨field, member, given⟩⟩

theorem exists_formLines {name : String} {form : TypeForm} :
    (∃ lines, schema.formLines name form = .ok lines) ↔
      ∀ value ∈ form.inputs, schema.Prints value := by
  cases form with
  | object fields interfaces => exact exists_outputTypeLines
  | interface fields interfaces => exact exists_outputTypeLines
  | inputObject fields =>
      simp only [formLines_inputObject_eq_ok, exists_made_iff, exists_forall₂_sortedByKey_iff,
        exists_inputFieldLines, TypeForm.inputs]
  | union members => simp [formLines, TypeForm.inputs]
  | enum values => simp [formLines, TypeForm.inputs]
  | scalar => simp [formLines, TypeForm.inputs]

theorem exists_typeLines {type : SchemaType} :
    (∃ lines, schema.typeLines type = .ok lines) ↔
      ∀ value ∈ type.form.inputs, schema.Prints value := by
  simp only [typeLines_eq_ok, exists_made_iff, exists_formLines]

theorem exists_directiveLines {directive : SchemaDirective} :
    (∃ lines, schema.directiveLines directive = .ok lines) ↔
      ∀ value ∈ directive.arguments.values, schema.Prints value := by
  simp only [directiveLines_eq_ok, exists_made_iff, exists_argumentsText]

/-- Printing fails only at an input value. -/
theorem exists_print :
    (∃ text, schema.print = .ok text) ↔ ∀ value ∈ schema.ownInputs, schema.Prints value := by
  have each : (∃ text, schema.print = .ok text) ↔
      (∀ directive ∈ schema.ownDirectives, ∃ lines, schema.directiveLines directive = .ok lines) ∧
        ∀ type ∈ schema.ownTypes, ∃ lines, schema.typeLines type = .ok lines := by
    simp only [← exists_forall₂_iff, print_eq_ok]
    exact ⟨fun ⟨_, directives, types, directed, typed, _⟩ => ⟨⟨directives, directed⟩, types, typed⟩,
      fun ⟨⟨directives, directed⟩, types, typed⟩ => ⟨_, directives, types, directed, typed, rfl⟩⟩
  rw [each]
  simp only [exists_directiveLines, exists_typeLines, ownInputs, List.mem_append, List.mem_flatMap]
  constructor
  · rintro ⟨directed, typed⟩ value (⟨directive, member, given⟩ | ⟨type, member, given⟩)
    · exact directed directive member value given
    · exact typed type member value given
  · intro all
    exact ⟨fun directive member value given => all value (.inl ⟨directive, member, given⟩),
      fun type member value given => all value (.inr ⟨type, member, given⟩)⟩

end

end Schema

end GraphQL

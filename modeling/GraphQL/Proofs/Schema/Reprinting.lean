import GraphQL.Proofs.Schema.Arrangement
import GraphQL.Proofs.Schema.Writing

/-!
# Printing what a schema says

Descriptions only add lines to a printed schema: without them it is printed exactly if it is with
them, and then without these lines. Without descriptions a schema is printed as what it says is
printed, so two schemas that say the same are printed alike.
-/

namespace GraphQL

/-! ## Results that correspond -/

/-- Both give results that stand in a relation, or both fail. -/
inductive Alike {α β ε : Type} (related : α → β → Prop) : Except ε α → Except ε β → Prop
  | ok {result : α} {other : β} (isRelated : related result other) :
      Alike related (.ok result) (.ok other)
  | error (fault otherFault : ε) : Alike related (.error fault) (.error otherFault)

namespace Alike

variable {α β γ δ ε : Type} {related : α → β → Prop} {goal : γ → δ → Prop}
  {first : Except ε α} {second : Except ε β}

theorem of_eq_ok_iff {first second : Except ε α}
    (same : ∀ result, first = .ok result ↔ second = .ok result) : Alike Eq first second := by
  cases first with
  | ok result =>
      obtain rfl := (same result).mp rfl
      exact .ok rfl
  | error fault =>
      cases second with
      | ok result => cases (same result).mpr rfl
      | error otherFault => exact .error fault otherFault

theorem bind {next : α → Except ε γ} {otherNext : β → Except ε δ}
    (alike : Alike related first second)
    (continues : ∀ result other, related result other →
      Alike goal (next result) (otherNext other)) :
    Alike goal (first >>= next) (second >>= otherNext) := by
  cases alike with
  | ok isRelated => exact continues _ _ isRelated
  | error fault otherFault => exact .error fault otherFault

theorem mapM {make : α → Except ε γ} {otherMake : β → Except ε δ} {change : α → β}
    {items : List α} (each : ∀ item ∈ items, Alike goal (make item) (otherMake (change item))) :
    Alike (List.Forall₂ goal) (items.mapM make) ((items.map change).mapM otherMake) := by
  induction items with
  | nil => exact .ok .nil
  | cons item items ih =>
      rw [List.forall_mem_cons] at each
      rw [List.mapM_cons, List.map_cons, List.mapM_cons]
      exact each.1.bind fun _ _ isRelated => (ih each.2).bind fun _ _ areRelated =>
        .ok (.cons isRelated areRelated)

/-- What succeeds on one side succeeds on the other. -/
theorem exists_of_left (alike : Alike related first second) {result : α}
    (succeeds : first = .ok result) : ∃ other, second = .ok other ∧ related result other := by
  cases alike with
  | ok isRelated =>
      cases succeeds
      exact ⟨_, rfl, isRelated⟩
  | error => cases succeeds

theorem exists_of_right (alike : Alike related first second) {other : β}
    (succeeds : second = .ok other) : ∃ result, first = .ok result ∧ related result other := by
  cases alike with
  | ok isRelated =>
      cases succeeds
      exact ⟨_, rfl, isRelated⟩
  | error => cases succeeds

end Alike

namespace Schema

/-! ## Descriptions -/

/-- The first lines are the others with lines of descriptions among them. -/
inductive Describes : List String → List String → Prop
  | nil : Describes [] []
  | line (line : String) {lines others : List String} (rest : Describes lines others) :
      Describes (line :: lines) (line :: others)
  | description {indentation : String} (isIndentation : indentation ∈ ["", "  "])
      (description : Option String) {lines others : List String} (rest : Describes lines others) :
      Describes (descriptionLines indentation description ++ lines) others

namespace Describes

theorem refl (lines : List String) : Describes lines lines := by
  induction lines with
  | nil => exact .nil
  | cons line lines ih => exact .line line ih

theorem append {lines others moreLines moreOthers : List String}
    (described : Describes lines others) (more : Describes moreLines moreOthers) :
    Describes (lines ++ moreLines) (others ++ moreOthers) := by
  induction described with
  | nil => exact more
  | line line _ ih => exact .line line ih
  | description isIndentation description _ ih =>
      rw [List.append_assoc]
      exact .description isIndentation description ih

theorem flatten {blocks others : List (List String)} (each : List.Forall₂ Describes blocks others) :
    Describes blocks.flatten others.flatten := by
  induction each with
  | nil => exact .nil
  | cons first _ ih => exact first.append ih

theorem flatMap {α : Type} {make other : α → List String}
    (each : ∀ item, Describes (make item) (other item)) (items : List α) :
    Describes (items.flatMap make) (items.flatMap other) := by
  rw [List.flatMap_def, List.flatMap_def]
  refine flatten ?_
  rw [List.forall₂_map_left_iff, List.forall₂_map_right_iff]
  exact List.forall₂_same.mpr fun item _ => each item

theorem braced {lines others : List String} (described : Describes lines others)
    (heading : String) : Describes (Schema.braced heading lines) (Schema.braced heading others) :=
  (Describes.line _ described).append (refl _)

end Describes

/-- The first text is the other one with descriptions in its blocks. -/
def DescribesText (text other : String) : Prop :=
  ∃ blocks others, List.Forall₂ Describes blocks others ∧ text = blocksText blocks ∧
    other = blocksText others

/-! ## Without descriptions -/

theorem ownTypes_undescribed (schema : Schema) :
    schema.undescribed.ownTypes = schema.ownTypes.map SchemaType.undescribed := by
  simp only [ownTypes, undescribed, OrderedMap.values_mapValues, List.filter_map]
  rw [List.map_mergeSort]
  · rfl
  · exact fun _ _ _ _ => rfl

theorem ownDirectives_undescribed (schema : Schema) :
    schema.undescribed.ownDirectives = schema.ownDirectives.map SchemaDirective.undescribed := by
  simp only [ownDirectives, undescribed, OrderedMap.values_mapValues, List.filter_map]
  rw [List.map_mergeSort]
  · rfl
  · exact fun _ _ _ _ => rfl

theorem argumentsText_undescribed (schema : Schema) (arguments : OrderedMap InputValue) :
    schema.argumentsText (OrderedMap.mapValues arguments InputValue.undescribed) =
      schema.argumentsText arguments := by
  simp only [argumentsText, OrderedMap.sortedByKey_mapValues, OrderedMap.values_mapValues,
    List.mapM_map]
  have isEmpty : (OrderedMap.mapValues arguments InputValue.undescribed).isEmpty =
      arguments.isEmpty := List.isEmpty_map
  rw [isEmpty]
  rfl

section

variable {schema other : Schema} (same : other.inputForm? = schema.inputForm?)

include same

/-- Only the forms of input types decide about defaults. -/
theorem defaultLiteral_of_inputForm? {value : Json} {type : TypeRef} {text : String} :
    other.defaultLiteral value type = .ok text ↔ schema.defaultLiteral value type = .ok text := by
  rw [← defaultLiteral_floated same, ← same, defaultLiteral_floated rfl]

theorem inputValueText_of_inputForm? {value : InputValue} {text : String} :
    other.inputValueText value = .ok text ↔ schema.inputValueText value = .ok text := by
  simp only [inputValueText_eq_ok, defaultLiteral_of_inputForm? same]

end

section

variable {schema other : Schema} (same : other.inputForm? = schema.inputForm?)

include same

theorem alike_inputValueText (value : InputValue) :
    Alike Eq (schema.inputValueText value) (other.inputValueText value.undescribed) :=
  .of_eq_ok_iff fun _ => (inputValueText_of_inputForm? same).symm

theorem alike_argumentsText (arguments : OrderedMap InputValue) :
    Alike Eq (schema.argumentsText arguments)
      (other.argumentsText (OrderedMap.mapValues arguments InputValue.undescribed)) := by
  rw [argumentsText_undescribed]
  refine .of_eq_ok_iff fun text => ?_
  simp only [argumentsText_eq_ok, inputValueText_of_inputForm? same]

theorem alike_outputFieldLines (field : OutputField) :
    Alike Describes (schema.outputFieldLines field) (other.outputFieldLines field.undescribed) := by
  refine (alike_argumentsText same field.arguments).bind ?_
  rintro arguments _ rfl
  exact .ok (.description (by simp) _ (.refl _))

theorem alike_inputFieldLines (field : InputValue) :
    Alike Describes (schema.inputFieldLines field) (other.inputFieldLines field.undescribed) := by
  refine (alike_inputValueText same field).bind ?_
  rintro text _ rfl
  exact .ok (.description (by simp) _ (.refl _))

theorem alike_outputTypeLines (heading : String) (fields : OrderedMap OutputField) :
    Alike Describes (schema.outputTypeLines heading fields)
      (other.outputTypeLines heading (OrderedMap.mapValues fields OutputField.undescribed)) := by
  simp only [outputTypeLines, OrderedMap.sortedByKey_mapValues, OrderedMap.values_mapValues]
  exact (Alike.mapM fun field _ => alike_outputFieldLines same field).bind fun _ _ each =>
    .ok ((Describes.flatten each).braced heading)

omit same in
theorem describes_enumValueLines (value : EnumValue) :
    Describes (enumValueLines value) (enumValueLines value.undescribed) :=
  .description (by simp) _ (.refl _)

theorem alike_formLines (name : String) (form : TypeForm) :
    Alike Describes (schema.formLines name form) (other.formLines name form.undescribed) := by
  cases form with
  | scalar => exact .ok (.refl _)
  | object fields interfaces => exact alike_outputTypeLines same _ fields
  | interface fields interfaces => exact alike_outputTypeLines same _ fields
  | union members => exact .ok (.refl _)
  | enum values =>
      simp only [TypeForm.undescribed, formLines, mergeSort_map_undescribed]
      rw [List.flatMap_map]
      exact .ok ((Describes.flatMap describes_enumValueLines _).braced _)
  | inputObject fields =>
      simp only [TypeForm.undescribed, formLines, OrderedMap.sortedByKey_mapValues,
        OrderedMap.values_mapValues]
      exact (Alike.mapM fun field _ => alike_inputFieldLines same field).bind fun _ _ each =>
        .ok ((Describes.flatten each).braced _)

theorem alike_typeLines (type : SchemaType) :
    Alike Describes (schema.typeLines type) (other.typeLines type.undescribed) :=
  (alike_formLines same type.name type.form).bind fun _ _ described =>
    .ok (.description (by simp) _ described)

theorem alike_directiveLines (directive : SchemaDirective) :
    Alike Describes (schema.directiveLines directive)
      (other.directiveLines directive.undescribed) := by
  refine (alike_argumentsText same directive.arguments).bind ?_
  rintro arguments _ rfl
  exact .ok (.description (by simp) _ (.refl _))

end

/-- Descriptions only add lines to a printed schema. -/
theorem alike_print (schema : Schema) :
    Alike DescribesText schema.print schema.undescribed.print := by
  have same := schema.inputForm?_undescribed
  simp only [print, ownTypes_undescribed, ownDirectives_undescribed]
  refine (Alike.mapM fun directive _ => alike_directiveLines same directive).bind
    fun directives otherDirectives directed =>
      (Alike.mapM fun type _ => alike_typeLines same type).bind fun types otherTypes typed => .ok ?_
  refine ⟨schema.rootLines ++ directives ++ types,
    schema.rootLines ++ otherDirectives ++ otherTypes, ?_, rfl, rfl⟩
  exact List.rel_append (List.rel_append (List.forall₂_same.mpr fun _ _ => .refl _) directed) typed

/-! ## Contents -/

section

variable {schema other : Schema} (same : other.inputForm? = schema.inputForm?)

include same

theorem inputValueText_content {value : InputValue} {text : String} :
    other.inputValueText (value.content schema.inputForm?) = .ok text ↔
      schema.inputValueText value = .ok text := by
  simp only [inputValueText_eq_ok, InputValue.content, Option.map_eq_none_iff,
    Option.map_eq_some_iff]
  constructor
  · rintro (⟨missing, rfl⟩ | ⟨_, literal, ⟨default, given, rfl⟩, printed, rfl⟩)
    · exact .inl ⟨missing, rfl⟩
    · exact .inr ⟨default, literal, given, (defaultLiteral_floated same).mp printed, rfl⟩
  · rintro (⟨missing, rfl⟩ | ⟨default, literal, given, printed, rfl⟩)
    · exact .inl ⟨missing, rfl⟩
    · exact .inr ⟨_, literal, ⟨default, given, rfl⟩, (defaultLiteral_floated same).mpr printed, rfl⟩

omit same in
theorem values_sortedByKey_inputContent (forms : String → Option InputForm)
    (values : OrderedMap InputValue) :
    (OrderedMap.sortedByKey (inputContent forms values)).values =
      (OrderedMap.sortedByKey values).values.map (InputValue.content forms) := by
  rw [inputContent, OrderedMap.sortedByKey_mapValues, OrderedMap.sortedByKey_sortedByKey,
    OrderedMap.values_mapValues]

omit same in
theorem inputContent_eq_nil (forms : String → Option InputForm) {values : OrderedMap InputValue} :
    inputContent forms values = [] ↔ values = [] := by
  rw [inputContent, OrderedMap.mapValues, List.map_eq_nil_iff, ← List.isEmpty_iff,
    (OrderedMap.sortedByKey_perm values).isEmpty_eq, List.isEmpty_iff]

theorem argumentsText_content {arguments : OrderedMap InputValue} {text : String} :
    other.argumentsText (inputContent schema.inputForm? arguments) = .ok text ↔
      schema.argumentsText arguments = .ok text := by
  simp only [argumentsText_eq_ok, inputContent_eq_nil, ne_eq, values_sortedByKey_inputContent,
    List.forall₂_map_left_iff, inputValueText_content same]

theorem outputFieldLines_content {field : OutputField} {lines : List String} :
    other.outputFieldLines (field.content schema.inputForm?) = .ok lines ↔
      schema.outputFieldLines field.undescribed = .ok lines := by
  simp only [outputFieldLines_eq_ok, OutputField.content, OutputField.undescribed,
    argumentsText_content same, argumentsText_undescribed]

theorem inputFieldLines_content {field : InputValue} {lines : List String} :
    other.inputFieldLines (field.content schema.inputForm?) = .ok lines ↔
      schema.inputFieldLines field.undescribed = .ok lines := by
  simp only [inputFieldLines_eq_ok, inputValueText_content same]
  rfl

theorem outputTypeLines_content {heading : String} {fields : OrderedMap OutputField}
    {lines : List String} :
    other.outputTypeLines heading (outputContent schema.inputForm? fields) = .ok lines ↔
      schema.outputTypeLines heading (OrderedMap.mapValues fields OutputField.undescribed) =
        .ok lines := by
  simp only [outputTypeLines_eq_ok, outputContent, OrderedMap.sortedByKey_mapValues,
    OrderedMap.sortedByKey_sortedByKey, OrderedMap.values_mapValues, List.forall₂_map_left_iff,
    outputFieldLines_content same]

omit same in
theorem sortedNames_inOrder (separator : String) (names : List String) :
    sortedNames separator (inOrder names) = sortedNames separator names :=
  congrArg separator.intercalate (inOrder_inOrder names)

omit same in
theorem implementsText_inOrder (interfaces : List String) :
    implementsText (inOrder interfaces) = implementsText interfaces := by
  have perm := List.mergeSort_perm interfaces fun left right => decide (left ≤ right)
  have isEmpty : (inOrder interfaces).isEmpty = interfaces.isEmpty := perm.isEmpty_eq
  rw [implementsText, implementsText, isEmpty, sortedNames_inOrder]

theorem formLines_content {name : String} {form : TypeForm} {lines : List String} :
    other.formLines name (form.content schema.inputForm?) = .ok lines ↔
      schema.formLines name form.undescribed = .ok lines := by
  cases form with
  | scalar => exact .rfl
  | object fields interfaces =>
      simp only [TypeForm.content, TypeForm.undescribed, formLines, implementsText_inOrder,
        outputTypeLines_content same]
  | interface fields interfaces =>
      simp only [TypeForm.content, TypeForm.undescribed, formLines, implementsText_inOrder,
        outputTypeLines_content same]
  | union members =>
      simp only [TypeForm.content, TypeForm.undescribed, formLines, sortedNames_inOrder]
  | enum values =>
      simp only [TypeForm.content, TypeForm.undescribed, formLines, mergeSort_map_undescribed,
        mergeSort_mergeSort_name]
  | inputObject fields =>
      simp only [TypeForm.content, TypeForm.undescribed, formLines_inputObject_eq_ok, inputContent,
        OrderedMap.sortedByKey_mapValues, OrderedMap.sortedByKey_sortedByKey,
        OrderedMap.values_mapValues, List.forall₂_map_left_iff, inputFieldLines_content same]

theorem typeLines_content {type : SchemaType} {lines : List String} :
    other.typeLines (type.content schema.inputForm?) = .ok lines ↔
      schema.typeLines type.undescribed = .ok lines := by
  simp only [typeLines_eq_ok, SchemaType.content, SchemaType.undescribed, formLines_content same]

theorem directiveLines_content {directive : SchemaDirective} {lines : List String} :
    other.directiveLines (directive.content schema.inputForm?) = .ok lines ↔
      schema.directiveLines directive.undescribed = .ok lines := by
  simp only [directiveLines_eq_ok, SchemaDirective.content, SchemaDirective.undescribed,
    argumentsText_content same, argumentsText_undescribed]
  rfl

end

/-! ## Whole schemas -/

/-- A change that keeps names can be made before or after the named ones are taken in order. -/
theorem mergeSort_filter_mapValues {α : Type} {name : α → String} {map : OrderedMap α}
    (change : α → α) (keepsNames : ∀ value, name (change value) = name value)
    (distinct : (OrderedMap.keys map).Nodup) (named : ∀ entry ∈ map, name entry.2 = entry.1)
    (isOwn : String → Bool) :
    ((((OrderedMap.sortedByKey map).mapValues change).values.filter fun value =>
        isOwn (name value)).mergeSort fun left right => decide (name left ≤ name right)) =
      ((map.values.filter fun value => isOwn (name value)).mergeSort
        fun left right => decide (name left ≤ name right)).map change := by
  have names : map.values.map name = OrderedMap.keys map := by
    rw [OrderedMap.values, List.map_map]
    exact List.map_congr_left named
  have perm : (map.values.filter fun value => isOwn (name value)).Perm
      ((OrderedMap.sortedByKey map).values.filter fun value => isOwn (name value)) :=
    (OrderedMap.values_sortedByKey_perm map).symm.filter _
  have distinctNames : ((map.values.filter fun value => isOwn (name value)).map name).Nodup :=
    (names ▸ distinct).sublist (List.filter_sublist.map _)
  rw [mergeSort_name_of_perm perm distinctNames, OrderedMap.values_mapValues, List.filter_map]
  simp only [Function.comp_def, keepsNames]
  refine (List.map_mergeSort fun left _ right _ => ?_).symm
  rw [keepsNames, keepsNames]

section

variable {schema : Schema} (keyed : schema.IsKeyed)

include keyed

theorem ownTypes_content :
    schema.content.ownTypes = schema.ownTypes.map (SchemaType.content schema.inputForm?) :=
  mergeSort_filter_mapValues (SchemaType.content _) (fun _ => rfl) keyed.types keyed.typesNamed
    fun name => !builtInScalars.contains name

theorem ownDirectives_content :
    schema.content.ownDirectives =
      schema.ownDirectives.map (SchemaDirective.content schema.inputForm?) :=
  mergeSort_filter_mapValues (SchemaDirective.content _) (fun _ => rfl) keyed.directives
    keyed.directivesNamed fun name => !builtInDirectives.contains name

omit keyed in
theorem rootLines_content (schema : Schema) : schema.content.rootLines = schema.rootLines :=
  rfl

omit keyed in
theorem rootLines_undescribed (schema : Schema) : schema.undescribed.rootLines = schema.rootLines :=
  rfl

/-- Without its descriptions a schema is printed as what it says. -/
theorem print_content {text : String} :
    schema.content.print = .ok text ↔ schema.undescribed.print = .ok text := by
  have same : schema.content.inputForm? = schema.undescribed.inputForm? := by
    rw [inputForm?_content keyed, inputForm?_undescribed]
  have typed (type : SchemaType) (lines : List String) :
      schema.content.typeLines (type.content schema.inputForm?) = .ok lines ↔
        schema.undescribed.typeLines type.undescribed = .ok lines := by
    rw [← schema.inputForm?_undescribed]
    exact typeLines_content same
  have directed (directive : SchemaDirective) (lines : List String) :
      schema.content.directiveLines (directive.content schema.inputForm?) = .ok lines ↔
        schema.undescribed.directiveLines directive.undescribed = .ok lines := by
    rw [← schema.inputForm?_undescribed]
    exact directiveLines_content same
  have roots : schema.content.rootLines = schema.undescribed.rootLines :=
    (rootLines_content schema).trans (rootLines_undescribed schema).symm
  simp only [print_eq_ok, ownTypes_content keyed, ownDirectives_content keyed, ownTypes_undescribed,
    ownDirectives_undescribed, List.forall₂_map_left_iff, typed, directed, roots]

end

/-- Schemas that say the same are printed alike. -/
theorem print_of_content_eq {schema again : Schema} (keyed : schema.IsKeyed)
    (againKeyed : again.IsKeyed) (same : again.content = schema.content) {text : String}
    (printed : schema.print = .ok text) :
    ∃ plain next, schema.undescribed.print = .ok plain ∧ again.undescribed.print = .ok plain ∧
      again.print = .ok next ∧ DescribesText text plain ∧ DescribesText next plain := by
  rcases schema.alike_print.exists_of_left printed with ⟨plain, isPlain, described⟩
  have contentPrinted := (print_content keyed).mpr isPlain
  rw [← same] at contentPrinted
  have againPlain := (print_content againKeyed).mp contentPrinted
  rcases again.alike_print.exists_of_right againPlain with ⟨next, printedAgain, describedAgain⟩
  exact ⟨plain, next, isPlain, againPlain, printedAgain, described, describedAgain⟩

end Schema
end GraphQL

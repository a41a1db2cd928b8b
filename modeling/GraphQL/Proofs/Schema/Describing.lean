import GraphQL.Proofs.Schema.Reprinting

/-!
# What descriptions add to a printed schema

A printed part is what is printed of it without its descriptions, with their lines before those that
they describe. So parts that say the same are printed with the same lines as soon as the lines of
their descriptions are the same.
-/

namespace GraphQL

/-- What is described under some names, in their order. -/
def fieldDescriptions {α : Type} (description : α → Option String) (fields : OrderedMap α) :
    List (String × Option String) :=
  (OrderedMap.sortedByKey fields).map fun entry => (entry.1, description entry.2)

/-- The descriptions of the fields or the values of a type, in the order of their names. -/
def TypeForm.descriptions : TypeForm → List (String × Option String)
  | object fields _ => fieldDescriptions OutputField.description fields
  | interface fields _ => fieldDescriptions OutputField.description fields
  | inputObject fields => fieldDescriptions InputValue.description fields
  | enum values =>
      (values.mergeSort fun left right => decide (left.name ≤ right.name)).map fun value =>
        (value.name, value.description)
  | union _ => []
  | scalar => []

namespace Schema

/-- The lines of the descriptions in a type, for each of its fields or values. -/
def fieldFronts (form : TypeForm) : List (List String) :=
  form.descriptions.map fun entry => descriptionLines "  " entry.2

/-- Lines with other lines before each of the first ones. -/
def interleave : List (List String) → List String → List String
  | front :: fronts, line :: lines => front ++ line :: interleave fronts lines
  | _, lines => lines

/-- The lines of a type with other lines before those of its fields or values. -/
def describeFields (fronts : List (List String)) : List String → List String
  | heading :: lines => heading :: interleave fronts lines
  | [] => []

section

variable {α : Type} {make : α → Except SchemaError (List String)} {front : α → List String}

theorem interleave_nil (lines : List String) : interleave [] lines = lines := by
  cases lines <;> rfl

/-- What is printed of some fields, each in a line with other lines before it. -/
theorem exists_interleave {fields : List α} {blocks : List (List String)}
    (printed : List.Forall₂ (fun field lines => make field = .ok lines) fields blocks)
    {plain : α → α} (each : ∀ field lines, make field = .ok lines →
      ∃ line, make (plain field) = .ok [line] ∧ lines = front field ++ [line]) :
    ∃ others, List.Forall₂ (fun field lines => make (plain field) = .ok lines) fields others ∧
      ∀ rest, blocks.flatten ++ rest = interleave (fields.map front) (others.flatten ++ rest) := by
  induction printed with
  | nil => exact ⟨[], .nil, fun rest => (interleave_nil rest).symm⟩
  | @cons field lines fields blocks first _ ih =>
      rcases each field lines first with ⟨line, isPlain, rfl⟩
      rcases ih with ⟨others, arePlain, joined⟩
      refine ⟨[line] :: others, .cons isPlain arePlain, fun rest => ?_⟩
      rw [List.flatten_cons, List.append_assoc, joined]
      simp [interleave]

end

section

variable {schema : Schema}

theorem outputFieldLines_described {field : OutputField} {lines : List String}
    (printed : schema.outputFieldLines field = .ok lines) :
    ∃ line, schema.outputFieldLines field.undescribed = .ok [line] ∧
      lines = descriptionLines "  " field.description ++ [line] := by
  rcases outputFieldLines_eq_ok.mp printed with ⟨arguments, isText, rfl⟩
  refine ⟨_, outputFieldLines_eq_ok.mpr ⟨arguments, ?_, rfl⟩, rfl⟩
  rw [OutputField.undescribed, argumentsText_undescribed]
  exact isText

theorem inputFieldLines_described {field : InputValue} {lines : List String}
    (printed : schema.inputFieldLines field = .ok lines) :
    ∃ line, schema.inputFieldLines field.undescribed = .ok [line] ∧
      lines = descriptionLines "  " field.description ++ [line] := by
  rcases inputFieldLines_eq_ok.mp printed with ⟨text, isText, rfl⟩
  exact ⟨_, inputFieldLines_eq_ok.mpr ⟨text, isText, rfl⟩, rfl⟩

theorem enumValueLines_described (values : List EnumValue) (rest : List String) :
    values.flatMap enumValueLines ++ rest =
      interleave (values.map fun value => descriptionLines "  " value.description)
        (values.flatMap (fun value => enumValueLines value.undescribed) ++ rest) := by
  induction values with
  | nil => exact (interleave_nil rest).symm
  | cons value values ih =>
      rw [List.flatMap_cons, List.append_assoc, ih]
      simp [enumValueLines, EnumValue.undescribed, descriptionLines, interleave]

theorem outputTypeLines_described {heading : String} {fields : OrderedMap OutputField}
    {lines : List String} (printed : schema.outputTypeLines heading fields = .ok lines) :
    ∃ plain, schema.outputTypeLines heading (OrderedMap.mapValues fields OutputField.undescribed) =
        .ok plain ∧
      lines = describeFields ((fieldDescriptions OutputField.description fields).map fun entry =>
        descriptionLines "  " entry.2) plain := by
  rcases outputTypeLines_eq_ok.mp printed with ⟨blocks, arePrinted, rfl⟩
  rcases exists_interleave arePrinted fun _ _ => outputFieldLines_described with
    ⟨others, arePlain, joined⟩
  refine ⟨braced heading others.flatten, outputTypeLines_eq_ok.mpr ⟨others, ?_, rfl⟩, ?_⟩
  · rwa [OrderedMap.sortedByKey_mapValues, OrderedMap.values_mapValues, List.forall₂_map_left_iff]
  · rw [braced, braced, List.cons_append, List.cons_append, describeFields, joined,
      fieldDescriptions, OrderedMap.values, List.map_map, List.map_map]
    rfl

theorem formLines_described {name : String} {form : TypeForm} {lines : List String}
    (printed : schema.formLines name form = .ok lines) :
    ∃ plain, schema.formLines name form.undescribed = .ok plain ∧
      lines = describeFields (fieldFronts form) plain := by
  cases form with
  | scalar => exact ⟨lines, printed, by cases printed; rfl⟩
  | union members => exact ⟨lines, printed, by cases printed; rfl⟩
  | object fields interfaces => exact outputTypeLines_described printed
  | interface fields interfaces => exact outputTypeLines_described printed
  | enum values =>
      cases printed
      refine ⟨_, rfl, ?_⟩
      simp only [mergeSort_map_undescribed]
      rw [braced, braced, List.cons_append, List.cons_append, describeFields, List.flatMap_map,
        enumValueLines_described, fieldFronts, TypeForm.descriptions, List.map_map]
      rfl
  | inputObject fields =>
      rcases formLines_inputObject_eq_ok.mp printed with ⟨blocks, arePrinted, rfl⟩
      rcases exists_interleave arePrinted fun _ _ => inputFieldLines_described with
        ⟨others, arePlain, joined⟩
      refine ⟨braced ("input " ++ name) others.flatten,
        formLines_inputObject_eq_ok.mpr ⟨others, ?_, rfl⟩, ?_⟩
      · rwa [OrderedMap.sortedByKey_mapValues, OrderedMap.values_mapValues,
          List.forall₂_map_left_iff]
      · rw [braced, braced, List.cons_append, List.cons_append, describeFields, joined, fieldFronts,
          TypeForm.descriptions, fieldDescriptions, OrderedMap.values, List.map_map, List.map_map]
        rfl

theorem typeLines_described {type : SchemaType} {lines : List String}
    (printed : schema.typeLines type = .ok lines) :
    ∃ plain, schema.typeLines type.undescribed = .ok plain ∧
      lines = descriptionLines "" type.description ++
        describeFields (fieldFronts type.form) plain := by
  rcases typeLines_eq_ok.mp printed with ⟨others, arePrinted, rfl⟩
  rcases formLines_described arePrinted with ⟨plain, isPlain, rfl⟩
  exact ⟨plain, typeLines_eq_ok.mpr ⟨plain, isPlain, rfl⟩, rfl⟩

theorem directiveLines_described {directive : SchemaDirective} {lines : List String}
    (printed : schema.directiveLines directive = .ok lines) :
    ∃ plain, schema.directiveLines directive.undescribed = .ok plain ∧
      lines = descriptionLines "" directive.description ++ plain := by
  rcases directiveLines_eq_ok.mp printed with ⟨arguments, isText, rfl⟩
  refine ⟨_, directiveLines_eq_ok.mpr ⟨arguments, ?_, rfl⟩, rfl⟩
  rw [SchemaDirective.undescribed, argumentsText_undescribed]
  exact isText

end

/-! ## Parts that say the same -/

/-- What is made of some items is made of others that are alike in their order. -/
theorem forall₂_of_map_eq {α β γ : Type} {change otherChange : α → γ} {items others : List α}
    {results : List β} {makes makesAgain : α → β → Prop}
    (same : others.map otherChange = items.map change) (made : List.Forall₂ makes items results)
    (each : ∀ item ∈ items, ∀ other ∈ others, otherChange other = change item →
      ∀ result, makes item result → makesAgain other result) :
    List.Forall₂ makesAgain others results := by
  induction made generalizing others with
  | nil =>
      rw [List.map_nil, List.map_eq_nil_iff] at same
      exact same ▸ .nil
  | @cons item result items results first _ ih =>
      rcases List.map_eq_cons_iff.mp same with ⟨other, others, rfl, alike, same⟩
      refine .cons (each item List.mem_cons_self other List.mem_cons_self alike result first)
        (ih same fun item member other isOther => ?_)
      exact each item (List.mem_cons_of_mem _ member) other (List.mem_cons_of_mem _ isOther)

section

variable {schema again : Schema} (forms : again.inputForm? = schema.inputForm?)

include forms

theorem typeLines_again {type other : SchemaType} {lines : List String}
    (same : other.content again.inputForm? = type.content schema.inputForm?)
    (front : descriptionLines "" other.description = descriptionLines "" type.description)
    (fronts : fieldFronts other.form = fieldFronts type.form)
    (printed : schema.typeLines type = .ok lines) : again.typeLines other = .ok lines := by
  rcases typeLines_described printed with ⟨plain, isPlain, rfl⟩
  have plainAgain : again.typeLines other.undescribed = .ok plain := by
    rw [← typeLines_content forms.symm, same, typeLines_content rfl]
    exact isPlain
  rcases (alike_typeLines rfl other).exists_of_right plainAgain with ⟨lines, printedAgain, _⟩
  rcases typeLines_described printedAgain with ⟨otherPlain, isOtherPlain, rfl⟩
  obtain rfl := Except.ok.inj (isOtherPlain.symm.trans plainAgain)
  rw [printedAgain, front, fronts]

theorem directiveLines_again {directive other : SchemaDirective} {lines : List String}
    (same : other.content again.inputForm? = directive.content schema.inputForm?)
    (front : descriptionLines "" other.description = descriptionLines "" directive.description)
    (printed : schema.directiveLines directive = .ok lines) :
    again.directiveLines other = .ok lines := by
  rcases directiveLines_described printed with ⟨plain, isPlain, rfl⟩
  have plainAgain : again.directiveLines other.undescribed = .ok plain := by
    rw [← directiveLines_content forms.symm, same, directiveLines_content rfl]
    exact isPlain
  rcases (alike_directiveLines rfl other).exists_of_right plainAgain with ⟨lines, printedAgain, _⟩
  rcases directiveLines_described printedAgain with ⟨otherPlain, isOtherPlain, rfl⟩
  obtain rfl := Except.ok.inj (isOtherPlain.symm.trans plainAgain)
  rw [printedAgain, front]

end

end Schema

end GraphQL

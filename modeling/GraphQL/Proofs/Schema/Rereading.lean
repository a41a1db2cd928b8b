import GraphQL.Proofs.OrderedMap
import GraphQL.Proofs.Schema.Content
import GraphQL.Proofs.Text.Rereading

/-!
# What is read of what is printed

What a printed part of a schema says when it is read: everything is in the order of its names,
descriptions are read as they were written, arguments have none, and defaults are whatever is read
for them. Without its descriptions this is the content of the part if every default is read as a
value of its type.
-/

namespace GraphQL

section

variable (read : TypeRef → Json → Json)

/-- An input value without a description, with the default that is read for it. -/
def InputValue.reread (value : InputValue) : InputValue :=
  { name := value.name
    type := value.type
    default? := value.default?.map (read value.type) }

/-- A field of an input object stands on lines of its own, with its description. -/
def InputValue.rereadField (field : InputValue) : InputValue :=
  { field.reread read with description := field.description.map (Text.reread "  ") }

def argumentsReread (arguments : OrderedMap InputValue) : OrderedMap InputValue :=
  (OrderedMap.sortedByKey arguments).mapValues (InputValue.reread read)

def OutputField.reread (field : OutputField) : OutputField :=
  { name := field.name
    description := field.description.map (Text.reread "  ")
    type := field.type
    arguments := argumentsReread read field.arguments
    deprecation := field.deprecation }

def EnumValue.reread (value : EnumValue) : EnumValue :=
  { value with description := value.description.map (Text.reread "  ") }

def TypeForm.reread : TypeForm → TypeForm
  | object fields interfaces =>
      object ((OrderedMap.sortedByKey fields).mapValues (OutputField.reread read))
        (inOrder interfaces)
  | interface fields interfaces =>
      interface ((OrderedMap.sortedByKey fields).mapValues (OutputField.reread read))
        (inOrder interfaces)
  | union members => union (inOrder members)
  | enum values =>
      enum ((values.mergeSort fun left right => decide (left.name ≤ right.name)).map
        EnumValue.reread)
  | inputObject fields =>
      inputObject ((OrderedMap.sortedByKey fields).mapValues (InputValue.rereadField read))
  | scalar => scalar

def SchemaType.reread (type : SchemaType) : SchemaType :=
  { name := type.name
    description := type.description.map (Text.reread "")
    form := type.form.reread read }

def SchemaDirective.reread (directive : SchemaDirective) : SchemaDirective :=
  { directive with
    description := directive.description.map (Text.reread "")
    arguments := argumentsReread read directive.arguments }

end

/-! ## Contents -/

section

variable (forms : String → Option InputForm)

/-- A default is read as a value of its type. -/
def readFloated (type : TypeRef) (default : Json) : Json :=
  default.floated forms type

theorem OutputField.undescribed_reread (field : OutputField) :
    (field.reread (readFloated forms)).undescribed = field.content forms := by
  simp only [OutputField.reread, OutputField.undescribed, OutputField.content, argumentsReread,
    inputContent, OrderedMap.mapValues_mapValues]
  rfl

theorem TypeForm.undescribed_reread (form : TypeForm) :
    (form.reread (readFloated forms)).undescribed = form.content forms := by
  cases form with
  | object fields interfaces =>
      simp only [TypeForm.reread, TypeForm.undescribed, TypeForm.content, outputContent,
        OrderedMap.mapValues_mapValues, OutputField.undescribed_reread]
  | interface fields interfaces =>
      simp only [TypeForm.reread, TypeForm.undescribed, TypeForm.content, outputContent,
        OrderedMap.mapValues_mapValues, OutputField.undescribed_reread]
  | inputObject fields =>
      rw [TypeForm.reread, TypeForm.undescribed, OrderedMap.mapValues_mapValues]
      rfl
  | enum values =>
      rw [TypeForm.reread, TypeForm.undescribed, List.map_map]
      rfl
  | _ => rfl

theorem SchemaType.undescribed_reread (type : SchemaType) :
    (type.reread (readFloated forms)).undescribed = type.content forms := by
  rw [SchemaType.reread, SchemaType.undescribed, TypeForm.undescribed_reread]
  rfl

theorem SchemaDirective.undescribed_reread (directive : SchemaDirective) :
    (directive.reread (readFloated forms)).undescribed = directive.content forms := by
  simp only [SchemaDirective.reread, SchemaDirective.undescribed, SchemaDirective.content,
    argumentsReread, inputContent, OrderedMap.mapValues_mapValues]
  rfl

end

end GraphQL

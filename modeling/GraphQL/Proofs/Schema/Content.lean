import GraphQL.Schema.Printer

/-!
# What a schema says

Two schemas say the same if they differ in descriptions, in the order of what has a name, and in
whether a default of type `Float` is a whole number or the floating-point number of the same value.
The content of a schema leaves all of that out: there are no descriptions, everything is in the
order of its names, and every default of type `Float` is a floating-point number.
-/

namespace GraphQL

/-- What the values of an input type look like: values of a scalar, the values of an enum by name,
or fields that each have a type. -/
inductive InputForm where
  | scalar
  | enum (has : String → Bool)
  | inputObject (type? : String → Option TypeRef)

/-- The form of the values of a type, missing for types that are not for input. -/
def TypeForm.inputForm? : TypeForm → Option InputForm
  | scalar => some .scalar
  | enum values => some (.enum fun text => values.any (·.name == text))
  | inputObject fields =>
      some (.inputObject fun name => (OrderedMap.find? fields name).map InputValue.type)
  | _ => none

def Schema.inputForm? (schema : Schema) (name : String) : Option InputForm :=
  (schema.type? name).bind fun type => type.form.inputForm?

namespace Json

section

variable (forms : String → Option InputForm)

mutual

/-- A value of an input type with whole numbers of type `Float` as floating-point numbers. -/
def floated (value : Json) (type : TypeRef) : Json :=
  match value, type with
  | value, .nonNull inner => floated value inner
  | .array items, .list item => .array (floatedItems items item)
  | value, .list item => floated value item
  | .int number, .named name =>
      if name = "Float" then .float (Float.ofInt number) else .int number
  | .object fields, .named name =>
      match forms name with
      | some (.inputObject type?) => .object (floatedFields type? fields)
      | _ => .object fields
  | value, .named _ => value
termination_by (sizeOf value, sizeOf type)

def floatedItems (items : List Json) (type : TypeRef) : List Json :=
  match items with
  | [] => []
  | item :: rest => floated item type :: floatedItems rest type
termination_by (sizeOf items, 0)

def floatedFields (type? : String → Option TypeRef) (fields : List (String × Json)) :
    List (String × Json) :=
  match fields with
  | [] => []
  | (name, value) :: rest =>
      let result :=
        match type? name with
        | some type => floated value type
        | none => value
      (name, result) :: floatedFields type? rest
termination_by (sizeOf fields, 0)

end

end

end Json

/-! ## Without descriptions -/

def InputValue.undescribed (value : InputValue) : InputValue :=
  { value with description := none }

def OutputField.undescribed (field : OutputField) : OutputField :=
  { field with
    description := none
    arguments := OrderedMap.mapValues field.arguments InputValue.undescribed }

def EnumValue.undescribed (value : EnumValue) : EnumValue :=
  { value with description := none }

def TypeForm.undescribed : TypeForm → TypeForm
  | object fields interfaces =>
      object (OrderedMap.mapValues fields OutputField.undescribed) interfaces
  | interface fields interfaces =>
      interface (OrderedMap.mapValues fields OutputField.undescribed) interfaces
  | enum values => enum (values.map EnumValue.undescribed)
  | inputObject fields => inputObject (OrderedMap.mapValues fields InputValue.undescribed)
  | union members => union members
  | scalar => scalar

def SchemaType.undescribed (type : SchemaType) : SchemaType :=
  { name := type.name, form := type.form.undescribed }

def SchemaDirective.undescribed (directive : SchemaDirective) : SchemaDirective :=
  { directive with
    description := none
    arguments := OrderedMap.mapValues directive.arguments InputValue.undescribed }

/-- The schema without its descriptions. -/
def Schema.undescribed (schema : Schema) : Schema :=
  { schema with
    types := OrderedMap.mapValues schema.types SchemaType.undescribed
    directives := OrderedMap.mapValues schema.directives SchemaDirective.undescribed }

/-! ## Content -/

section

variable (forms : String → Option InputForm)

def InputValue.content (value : InputValue) : InputValue :=
  { name := value.name
    type := value.type
    default? := value.default?.map fun default => default.floated forms value.type }

def inputContent (values : OrderedMap InputValue) : OrderedMap InputValue :=
  (OrderedMap.sortedByKey values).mapValues (InputValue.content forms)

def OutputField.content (field : OutputField) : OutputField :=
  { name := field.name
    type := field.type
    arguments := inputContent forms field.arguments
    deprecation := field.deprecation }

def outputContent (fields : OrderedMap OutputField) : OrderedMap OutputField :=
  (OrderedMap.sortedByKey fields).mapValues (OutputField.content forms)

/-- Names in order. -/
def inOrder (names : List String) : List String :=
  names.mergeSort fun left right => decide (left ≤ right)

def TypeForm.content : TypeForm → TypeForm
  | object fields interfaces => object (outputContent forms fields) (inOrder interfaces)
  | interface fields interfaces => interface (outputContent forms fields) (inOrder interfaces)
  | union members => union (inOrder members)
  | enum values =>
      enum ((values.mergeSort fun left right => decide (left.name ≤ right.name)).map
        EnumValue.undescribed)
  | inputObject fields => inputObject (inputContent forms fields)
  | scalar => scalar

def SchemaType.content (type : SchemaType) : SchemaType :=
  { name := type.name, form := type.form.content forms }

def SchemaDirective.content (directive : SchemaDirective) : SchemaDirective :=
  { directive with
    description := none
    arguments := inputContent forms directive.arguments }

end

/-- What the schema says. -/
def Schema.content (schema : Schema) : Schema :=
  { schema with
    types :=
      (OrderedMap.sortedByKey schema.types).mapValues (SchemaType.content schema.inputForm?)
    directives :=
      (OrderedMap.sortedByKey schema.directives).mapValues
        (SchemaDirective.content schema.inputForm?) }

end GraphQL

import GraphQL.Schema.Type

/-!
# Types and directives as JSON

The form in which the definitions of a schema are exchanged: a record is an object of its parts, a
choice an object with one field named for the alternative, a choice without parts a string.
-/

namespace GraphQL

namespace Json

def ofOption {α : Type} (encode : α → Json) : Option α → Json
  | some value => encode value
  | none => .null

def ofString? : Option String → Json :=
  ofOption .string

def ofStrings (texts : List String) : Json :=
  .array (texts.map .string)

def string? : Json → Option String
  | string text => some text
  | _ => none

def bool? : Json → Option Bool
  | bool value => some value
  | _ => none

def items? : Json → Option (List Json)
  | array items => some items
  | _ => none

def fields? : Json → Option (OrderedMap Json)
  | object fields => some fields
  | _ => none

/-- The value under a name, null if there is none. -/
def get (value : Json) (name : String) : Json :=
  (value.property? name).getD .null

/-- A text that may be missing. -/
def optionalString? : Json → Option (Option String)
  | null => some none
  | string text => some (some text)
  | _ => none

/-- Reads every value of an object. -/
def mapFields? {α : Type} (decode : Json → Option α) (value : Json) : Option (OrderedMap α) := do
  (← value.fields?).mapM fun (name, field) => return (name, ← decode field)

end Json

namespace TypeRef

def toJson : TypeRef → Json
  | named name => .object [("Named", .string name)]
  | list item => .object [("List", item.toJson)]
  | nonNull inner => .object [("NonNull", inner.toJson)]

def ofJson? : Json → Option TypeRef
  | .object [(key, value)] =>
      if key = "Named" then value.string?.map named
      else if key = "List" then (ofJson? value).map list
      else if key = "NonNull" then (ofJson? value).map nonNull
      else none
  | _ => none

end TypeRef

namespace InputValue

def toJson (value : InputValue) : Json :=
  .object
    [("name", .string value.name), ("description", Json.ofString? value.description),
      ("ty", value.type.toJson), ("default_value", value.default?.getD .null)]

/-- A default of null is read as no default. -/
def ofJson? (json : Json) : Option InputValue := do
  let default := json.get "default_value"
  return {
    name := ← (json.get "name").string?
    description := ← (json.get "description").optionalString?
    type := ← TypeRef.ofJson? (json.get "ty")
    default? := if default.isNull then none else some default }

end InputValue

namespace OutputField

def toJson (field : OutputField) : Json :=
  .object
    [("name", .string field.name), ("description", Json.ofString? field.description),
      ("ty", field.type.toJson),
      ("arguments", .object (field.arguments.mapValues InputValue.toJson)),
      ("deprecation_reason", Json.ofString? field.deprecation)]

def ofJson? (json : Json) : Option OutputField := do
  return {
    name := ← (json.get "name").string?
    description := ← (json.get "description").optionalString?
    type := ← TypeRef.ofJson? (json.get "ty")
    arguments := ← (json.get "arguments").mapFields? InputValue.ofJson?
    deprecation := ← (json.get "deprecation_reason").optionalString? }

end OutputField

namespace EnumValue

def toJson (value : EnumValue) : Json :=
  .object
    [("name", .string value.name), ("description", Json.ofString? value.description),
      ("deprecation_reason", Json.ofString? value.deprecation)]

def ofJson? (json : Json) : Option EnumValue := do
  return {
    name := ← (json.get "name").string?
    description := ← (json.get "description").optionalString?
    deprecation := ← (json.get "deprecation_reason").optionalString? }

end EnumValue

namespace SchemaType

/-- The name of the form of a type and the parts that belong to it. -/
def formParts : TypeForm → String × List (String × Json)
  | .scalar => ("Scalar", [])
  | .object fields interfaces =>
      ("Object", [("fields", .object (fields.mapValues OutputField.toJson)),
        ("implements", Json.ofStrings interfaces)])
  | .interface fields interfaces =>
      ("Interface", [("fields", .object (fields.mapValues OutputField.toJson)),
        ("implements", Json.ofStrings interfaces)])
  | .union members => ("Union", [("members", Json.ofStrings members)])
  | .enum values => ("Enum", [("values", .array (values.map EnumValue.toJson))])
  | .inputObject fields =>
      ("InputObject", [("fields", .object (fields.mapValues InputValue.toJson))])

def toJson (type : SchemaType) : Json :=
  let (form, parts) := formParts type.form
  .object
    [(form, .object
      ([("name", .string type.name), ("description", Json.ofString? type.description)] ++ parts))]

def strings? (json : Json) : Option (List String) := do
  (← json.items?).mapM Json.string?

def formOfJson? (form : String) (parts : Json) : Option TypeForm :=
  if form = "Scalar" then some .scalar
  else if form = "Object" then do
    return .object (← (parts.get "fields").mapFields? OutputField.ofJson?)
      (← strings? (parts.get "implements"))
  else if form = "Interface" then do
    return .interface (← (parts.get "fields").mapFields? OutputField.ofJson?)
      (← strings? (parts.get "implements"))
  else if form = "Union" then do return .union (← strings? (parts.get "members"))
  else if form = "Enum" then do
    return .enum (← (← (parts.get "values").items?).mapM EnumValue.ofJson?)
  else if form = "InputObject" then do
    return .inputObject (← (parts.get "fields").mapFields? InputValue.ofJson?)
  else none

def ofJson? : Json → Option SchemaType
  | .object [(form, parts)] => do
      return {
        name := ← (parts.get "name").string?
        description := ← (parts.get "description").optionalString?
        form := ← formOfJson? form parts }
  | _ => none

end SchemaType

namespace DirectiveLocation

/-- The words of a location joined with capitals: `FIELD_DEFINITION` gives `FieldDefinition`. -/
def joinedText (location : DirectiveLocation) : String :=
  String.ofList (joined true location.text.toList)
where
  joined : Bool → List Char → List Char
    | _, [] => []
    | capital, c :: rest =>
        if c = '_' then joined true rest
        else (if capital then c else c.toLower) :: joined false rest

def ofJoinedText? (text : String) : Option DirectiveLocation :=
  all.find? (·.joinedText == text)

end DirectiveLocation

namespace SchemaDirective

def toJson (directive : SchemaDirective) : Json :=
  .object
    [("name", .string directive.name), ("description", Json.ofString? directive.description),
      ("arguments", .object (directive.arguments.mapValues InputValue.toJson)),
      ("locations", Json.ofStrings (directive.locations.map DirectiveLocation.joinedText)),
      ("repeatable", .bool directive.repeatable)]

def ofJson? (json : Json) : Option SchemaDirective := do
  return {
    name := ← (json.get "name").string?
    description := ← (json.get "description").optionalString?
    arguments := ← (json.get "arguments").mapFields? InputValue.ofJson?
    locations := ← (← (json.get "locations").items?).mapM fun location => do
      DirectiveLocation.ofJoinedText? (← location.string?)
    repeatable := ← (json.get "repeatable").bool? }

end SchemaDirective

end GraphQL

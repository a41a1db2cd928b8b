import GraphQL.Parsing.Document
import GraphQL.Schema
import GraphQL.Schema.Error

/-!
# Schemas from definitions

Reads the definitions of a document into a schema, in their order, and then checks that every type
they refer to is defined.
-/

namespace GraphQL

namespace Literal

mutual

/-- A literal as a JSON value: enum values are strings, and neither variables nor numbers that are
not finite have a value. -/
def toJson : Literal → Json
  | var _ => .null
  | int value _ => .int value
  | float value _ => if value.isFinite then .float value else .null
  | string value _ => .string value
  | boolean value _ => .bool value
  | null _ => .null
  | enum name => .string name.text
  | list items _ => .array (itemsToJson items)
  | object fields _ => .object (OrderedMap.ofPairs (fieldsToJson fields))

def itemsToJson : List Literal → List Json
  | [] => []
  | item :: rest => toJson item :: itemsToJson rest

def fieldsToJson : List (Name × Literal) → List (String × Json)
  | [] => []
  | (name, value) :: rest => (name.text, toJson value) :: fieldsToJson rest

end

end Literal

def descriptionText (description : Option Description) : Option String :=
  description.map Description.text

/-- The reason in the first deprecation among some directives. -/
def deprecationReason (directives : List Directive) : Option String := do
  let directive ← directives.find? (·.name.text == "deprecated")
  let reason := (directive.arguments.find? (·.name.text == "reason")).bind fun argument =>
    match argument.value with
    | .string text _ => some text
    | _ => none
  some (reason.getD Schema.defaultDeprecation)

def InputValueDefinition.toInputValue (definition : InputValueDefinition) : InputValue :=
  { name := definition.name.text
    description := descriptionText definition.description
    type := definition.type.toTypeRef
    default? := definition.default?.map Literal.toJson }

def inputValues (definitions : List InputValueDefinition) : OrderedMap InputValue :=
  OrderedMap.ofPairs (definitions.map fun definition =>
    (definition.name.text, definition.toInputValue))

def FieldDefinition.toOutputField (definition : FieldDefinition) : OutputField :=
  { name := definition.name.text
    description := descriptionText definition.description
    type := definition.type.toTypeRef
    arguments := inputValues definition.arguments
    deprecation := deprecationReason definition.directives }

def outputFields (definitions : List FieldDefinition) : OrderedMap OutputField :=
  OrderedMap.ofPairs (definitions.map fun definition =>
    (definition.name.text, definition.toOutputField))

def EnumValueDefinition.toEnumValue (definition : EnumValueDefinition) : EnumValue :=
  { name := definition.name.text
    description := descriptionText definition.description
    deprecation := deprecationReason definition.directives }

def TypeBody.toForm : TypeBody → TypeForm
  | object interfaces fields => .object (outputFields fields) (interfaces.map Name.text)
  | interface interfaces fields => .interface (outputFields fields) (interfaces.map Name.text)
  | union members => .union (members.map Name.text)
  | enum values => .enum (values.map EnumValueDefinition.toEnumValue)
  | input fields => .inputObject (inputValues fields)
  | scalar => .scalar

def TypeDefinition.toSchemaType (definition : TypeDefinition) : SchemaType :=
  { name := definition.name.text
    description := descriptionText definition.description
    form := definition.body.toForm }

def DirectiveDefinition.toSchemaDirective (definition : DirectiveDefinition) : SchemaDirective :=
  { name := definition.name.text
    description := descriptionText definition.description
    arguments := inputValues definition.arguments
    locations := definition.locations
    repeatable := definition.repeatable }

namespace Schema

/-- Adds the types and directives of some definitions. Only a built-in scalar may be defined again.
-/
def addDefinitions : Schema → List Definition → Except SchemaError Schema
  | schema, [] => .ok schema
  | schema, .schema _ :: rest => addDefinitions schema rest
  | schema, .type definition :: rest =>
      let type := definition.toSchemaType
      if schema.types.contains type.name && !builtInScalars.contains type.name then
        .error (.duplicateType type.name)
      else addDefinitions (schema.addType type) rest
  | schema, .directive definition :: rest =>
      addDefinitions (schema.addDirective definition.toSchemaDirective) rest
  | _, .operation _ :: _ => .error .executableDefinition
  | _, .fragment _ :: _ => .error .executableDefinition

/-- The root operations of all schema definitions, in order. -/
def rootOperations (definitions : List Definition) : List RootOperation :=
  definitions.flatMap fun
    | .schema definition => definition.operations
    | _ => []

def setRoots (schema : Schema) (operations : List RootOperation) : Schema :=
  operations.foldl
    (fun schema operation => schema.withRoot operation.kind operation.type.text) schema

/-- The names that a type refers to, each with the place of the reference, in order. -/
def references (name : String) (type : SchemaType) : List (String × String) :=
  let ofFields (fields : OrderedMap OutputField) : List (String × String) :=
    fields.values.flatMap fun field =>
      let owner := name ++ "." ++ field.name
      (field.type.innermost, owner)
        :: field.arguments.values.map fun argument => (argument.type.innermost, owner)
  match type.form with
  | .object fields interfaces => interfaces.map (·, name) ++ ofFields fields
  | .interface fields interfaces => interfaces.map (·, name) ++ ofFields fields
  | .union members => members.map (·, name)
  | .inputObject fields => fields.values.map fun field => (field.type.innermost, name)
  | .scalar => []
  | .enum _ => []

/-- Every name that a type refers to is the name of a type. -/
def checkReferences (schema : Schema) : Except SchemaError Unit :=
  (schema.types.flatMap fun entry => references entry.1 entry.2).forM fun (name, owner) =>
    if (schema.type? name).isSome then .ok () else .error (.unknownType name owner)

/-- Every root type is an object type. -/
def checkRoots (schema : Schema) : Except SchemaError Unit :=
  [OperationKind.query, .mutation, .subscription].forM fun kind =>
    match schema.rootTypeName? kind with
    | some name =>
        if schema.isObjectType name then .ok () else .error (.invalidRootType name kind.text)
    | none => .ok ()

/-- The schema that the definitions of a document make. -/
def ofDefinitions (definitions : List Definition) : Except SchemaError Schema := do
  let defined ← addDefinitions initial definitions
  let schema := (setRoots defined (rootOperations definitions)).withConventionalRoots
  schema.checkReferences
  schema.checkRoots
  return schema

/-- The schema that a source defines. -/
def ofSource (source : String) : Except SchemaError Schema :=
  match Document.parse source with
  | .error fault => .error (.unreadable fault)
  | .ok parsed =>
      if parsed.hasErrors then .error (.invalidSource parsed.diagnostics)
      else ofDefinitions parsed.document.definitions

end Schema

end GraphQL

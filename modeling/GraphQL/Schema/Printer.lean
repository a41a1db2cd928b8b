import GraphQL.Document.Printer
import GraphQL.Schema
import GraphQL.Schema.Error
import GraphQL.Text.Block

/-!
# Sources of schemas

The source that defines a schema: everything but the built-in definitions, sorted by name, one block
a definition with an empty line between blocks. Default values are written as literals of their
types; a default that is no value of its type makes printing fail.
-/

namespace GraphQL

/-- A string as the lines that a reader would split it into. -/
def textLines (text : String) : List String :=
  (Text.lines text.toList).map String.ofList

namespace Json

mutual

/-- Any value as a literal, as a scalar without a known form takes it. -/
def literal : Json → String
  | string value => Text.quote value
  | array items => "[" ++ ", ".intercalate (literalItems items) ++ "]"
  | object fields => "\x7b" ++ ", ".intercalate (literalFields fields) ++ "\x7d"
  | value => value.compact

def literalItems : List Json → List String
  | [] => []
  | item :: rest => literal item :: literalItems rest

def literalFields : List (String × Json) → List String
  | [] => []
  | (name, value) :: rest => (name ++ ": " ++ literal value) :: literalFields rest

end

end Json

namespace Schema

/-- The literal of a value of a scalar, if it is one. -/
def scalarLiteral? (scalar : String) (value : Json) : Option String :=
  let whole : Option String :=
    match value with
    | .int number => if Json.fitsInt64 number then some (toString number) else none
    | _ => none
  let quoted : Option String :=
    match value with
    | .string text => some (Text.quote text)
    | _ => none
  if scalar = "Int" then whole
  else if scalar = "Float" then
    match value with
    | .int number => some (Literal.floatText (Float.ofInt number))
    | .float number => some (Literal.floatText number)
    | _ => none
  else if scalar = "String" then quoted
  else if scalar = "ID" then quoted.or whole
  else if scalar = "Boolean" then
    match value with
    | .bool flag => some (if flag then "true" else "false")
    | _ => none
  else some value.literal

mutual

/-- The literal of a default value. The second recursion is on the type, for a value that stands for
a list of one. -/
def defaultLiteral (schema : Schema) (value : Json) (type : TypeRef) :
    Except SchemaError String :=
  match value, type with
  | .null, _ => .ok "null"
  | value, .nonNull inner => defaultLiteral schema value inner
  | .array items, .list item => do
      let texts ← defaultItems schema items item
      return "[" ++ ", ".intercalate texts ++ "]"
  | value, .list item => defaultLiteral schema value item
  | value, .named name =>
      let unexpected : SchemaError := .unexpectedDefault (.named name) value
      match (schema.type? name).map SchemaType.form with
      | some .scalar =>
          match scalarLiteral? name value with
          | some text => .ok text
          | none => .error unexpected
      | some (.enum values) =>
          match value with
          | .string text =>
              if values.any (·.name == text) then .ok text else .error unexpected
          | _ => .error unexpected
      | some (.inputObject declared) =>
          match value with
          | .object fields => do
              let texts ← defaultFields schema declared unexpected fields
              return "\x7b" ++ ", ".intercalate texts ++ "\x7d"
          | _ => .error unexpected
      | _ => .error unexpected
termination_by (sizeOf value, sizeOf type)

def defaultItems (schema : Schema) (items : List Json) (type : TypeRef) :
    Except SchemaError (List String) :=
  match items with
  | [] => .ok []
  | item :: rest => do
      let first ← defaultLiteral schema item type
      return first :: (← defaultItems schema rest type)
termination_by (sizeOf items, 0)

def defaultFields (schema : Schema) (declared : OrderedMap InputValue) (unexpected : SchemaError)
    (fields : List (String × Json)) : Except SchemaError (List String) :=
  match fields with
  | [] => .ok []
  | (name, value) :: rest =>
      match declared.find? name with
      | none => .error unexpected
      | some field => do
          let first ← defaultLiteral schema value field.type
          return (name ++ ": " ++ first) :: (← defaultFields schema declared unexpected rest)
termination_by (sizeOf fields, 0)

end

/-- A description on lines of its own: quoted, or as a block string if it has several lines. -/
def descriptionLines (indentation : String) : Option String → List String
  | none => []
  | some text =>
      if text.toList.contains '\n' then
        (indentation ++ "\"\"\"") :: (textLines text).map (indentation ++ ·)
          ++ [indentation ++ "\"\"\""]
      else [indentation ++ Text.quote text]

def deprecationText : Option String → String
  | none => ""
  | some reason => " @deprecated(reason: " ++ Text.quote reason ++ ")"

def inputValueText (schema : Schema) (value : InputValue) : Except SchemaError String := do
  let declaration := value.name ++ ": " ++ value.type.text
  match value.default? with
  | none => return declaration
  | some default => return declaration ++ " = " ++ (← schema.defaultLiteral default value.type)

def argumentsText (schema : Schema) (arguments : OrderedMap InputValue) :
    Except SchemaError String := do
  if arguments.isEmpty then return ""
  else
    let texts ← arguments.sortedByKey.values.mapM schema.inputValueText
    return "(" ++ ", ".intercalate texts ++ ")"

def outputFieldLines (schema : Schema) (field : OutputField) :
    Except SchemaError (List String) := do
  let arguments ← schema.argumentsText field.arguments
  return descriptionLines "  " field.description
    ++ ["  " ++ field.name ++ arguments ++ ": " ++ field.type.text
      ++ deprecationText field.deprecation]

def inputFieldLines (schema : Schema) (field : InputValue) : Except SchemaError (List String) := do
  let text ← schema.inputValueText field
  return descriptionLines "  " field.description ++ ["  " ++ text]

def enumValueLines (value : EnumValue) : List String :=
  descriptionLines "  " value.description
    ++ ["  " ++ value.name ++ deprecationText value.deprecation]

/-- Names in order with a separator between them. -/
def sortedNames (separator : String) (names : List String) : String :=
  separator.intercalate (names.mergeSort fun left right => decide (left ≤ right))

def implementsText (interfaces : List String) : String :=
  if interfaces.isEmpty then "" else " implements " ++ sortedNames " & " interfaces

/-- A heading, lines between braces and the closing brace. -/
def braced (heading : String) (lines : List String) : List String :=
  (heading ++ " \x7b") :: lines ++ ["\x7d"]

def outputTypeLines (schema : Schema) (heading : String) (fields : OrderedMap OutputField) :
    Except SchemaError (List String) := do
  let lines ← fields.sortedByKey.values.mapM schema.outputFieldLines
  return braced heading lines.flatten

def formLines (schema : Schema) (name : String) : TypeForm → Except SchemaError (List String)
  | .scalar => .ok ["scalar " ++ name]
  | .object fields interfaces =>
      schema.outputTypeLines ("type " ++ name ++ implementsText interfaces) fields
  | .interface fields interfaces =>
      schema.outputTypeLines ("interface " ++ name ++ implementsText interfaces) fields
  | .union members => .ok ["union " ++ name ++ " = " ++ sortedNames " | " members]
  | .enum values =>
      let sorted := values.mergeSort fun left right => decide (left.name ≤ right.name)
      .ok (braced ("enum " ++ name) (sorted.flatMap enumValueLines))
  | .inputObject fields => do
      let lines ← fields.sortedByKey.values.mapM schema.inputFieldLines
      return braced ("input " ++ name) lines.flatten

def typeLines (schema : Schema) (type : SchemaType) : Except SchemaError (List String) := do
  return descriptionLines "" type.description ++ (← schema.formLines type.name type.form)

def directiveLines (schema : Schema) (directive : SchemaDirective) :
    Except SchemaError (List String) := do
  let arguments ← schema.argumentsText directive.arguments
  let repeatable := if directive.repeatable then " repeatable" else ""
  let locations := " | ".intercalate (directive.locations.map DirectiveLocation.text)
  return descriptionLines "" directive.description
    ++ ["directive @" ++ directive.name ++ arguments ++ repeatable ++ " on " ++ locations]

/-- The root types, if one of them has a name of its own. -/
def rootLines (schema : Schema) : List (List String) :=
  if schema.hasConventionalRoots then []
  else
    [braced "schema"
      ([OperationKind.query, .mutation, .subscription].flatMap fun kind =>
        (schema.rootTypeName? kind).toList.map fun name => "  " ++ kind.text ++ ": " ++ name)]

def ownDirectives (schema : Schema) : List SchemaDirective :=
  let own := schema.directives.values.filter fun directive =>
    !builtInDirectives.contains directive.name
  own.mergeSort fun left right => decide (left.name ≤ right.name)

def ownTypes (schema : Schema) : List SchemaType :=
  let own := schema.types.values.filter fun type => !builtInScalars.contains type.name
  own.mergeSort fun left right => decide (left.name ≤ right.name)

/-- The source of a schema. -/
def print (schema : Schema) : Except SchemaError String := do
  let directives ← schema.ownDirectives.mapM schema.directiveLines
  let types ← schema.ownTypes.mapM schema.typeLines
  let blocks := (schema.rootLines ++ directives ++ types).map ("\n".intercalate ·)
  return "\n\n".intercalate blocks ++ "\n"

end Schema

end GraphQL

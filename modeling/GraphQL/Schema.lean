import GraphQL.Document.Executable
import GraphQL.Schema.Type

/-!
# Schemas

The types and directives of a service and the object types at which operations start. A schema is
built by adding to the initial one; what validation and execution ask of it are the lookups below.
-/

namespace GraphQL

structure Schema where
  queryType : Option String := none
  mutationType : Option String := none
  subscriptionType : Option String := none
  types : OrderedMap SchemaType := []
  directives : OrderedMap SchemaDirective := []

namespace Schema

def builtInScalars : List String :=
  ["Int", "Float", "String", "Boolean", "ID"]

def builtInDirectives : List String :=
  ["skip", "include", "deprecated"]

/-- The field that every composite type has without declaring it. -/
def typenameField : OutputField :=
  { name := "__typename", type := .nonNull (.named "String") }

/-- The reason given for a deprecation without one. -/
def defaultDeprecation : String :=
  "No longer supported"

/-- Adds a type, in place of an older one of its name. -/
def addType (schema : Schema) (type : SchemaType) : Schema :=
  { schema with types := schema.types.insert type.name type }

/-- Adds a directive, in place of an older one of its name. -/
def addDirective (schema : Schema) (directive : SchemaDirective) : Schema :=
  { schema with directives := schema.directives.insert directive.name directive }

def withRoot (schema : Schema) (kind : OperationKind) (name : String) : Schema :=
  match kind with
  | .query => { schema with queryType := some name }
  | .mutation => { schema with mutationType := some name }
  | .subscription => { schema with subscriptionType := some name }

def builtInScalar (name : String) : SchemaType :=
  { name, description := some ("Built-in " ++ name ++ " scalar"), form := .scalar }

/-- A directive that decides by a condition whether a selection counts. -/
def conditionDirective (name description : String) : SchemaDirective :=
  { name
    description := some description
    arguments := [("if", { name := "if", type := .nonNull (.named "Boolean") })]
    locations := [.field, .fragmentSpread, .inlineFragment] }

def deprecatedDirective : SchemaDirective :=
  { name := "deprecated"
    description := some "Marks an element as no longer supported."
    arguments :=
      [("reason",
        { name := "reason"
          type := .named "String"
          default? := some (.string defaultDeprecation) })]
    locations := [.fieldDefinition, .enumValue] }

/-- The schema that has the built-in scalars and directives only. -/
def initial : Schema :=
  { types := builtInScalars.map fun name => (name, builtInScalar name)
    directives :=
      [("skip", conditionDirective "skip" "Skipped when true."),
        ("include", conditionDirective "include" "Included when true."),
        ("deprecated", deprecatedDirective)] }

/-- The type with a name. -/
def type? (schema : Schema) (name : String) : Option SchemaType :=
  schema.types.find? name

def directive? (schema : Schema) (name : String) : Option SchemaDirective :=
  schema.directives.find? name

def isObjectType (schema : Schema) (name : String) : Bool :=
  (schema.type? name).any SchemaType.isObject

/-- The name if an object type has it. -/
def objectNamed? (schema : Schema) (name : String) : Option String :=
  if schema.isObjectType name then some name else none

/-- Root types that are not set are the object types with the conventional names. -/
def withConventionalRoots (schema : Schema) : Schema :=
  { schema with
    queryType := schema.queryType.or (schema.objectNamed? "Query")
    mutationType := schema.mutationType.or (schema.objectNamed? "Mutation")
    subscriptionType := schema.subscriptionType.or (schema.objectNamed? "Subscription") }

/-- A field of an object or interface; every composite type has the field for its name. -/
def field? (schema : Schema) (typeName fieldName : String) : Option OutputField := do
  let type ← schema.type? typeName
  if fieldName = typenameField.name ∧ type.isComposite then some typenameField
  else
    let fields ← type.fields?
    fields.find? fieldName

/-- What one type adds to the object types that a value of some named type can have: an object
itself and its interfaces, a union its members. -/
def addPossible (schema : Schema) (name : String) (known : List String)
    (entry : String × SchemaType) : List String :=
  match entry.2.form with
  | .object _ interfaces =>
      let own := if entry.1 = name then known ++ [entry.1] else known
      own ++ (interfaces.filter (· == name)).map fun _ => entry.1
  | .union members => if entry.1 = name then members.filter schema.isObjectType else known
  | _ => known

/-- The object types that a value of a named type can have. -/
def possibleTypes (schema : Schema) (name : String) : List String :=
  schema.types.foldl (schema.addPossible name) []

def isPossibleType (schema : Schema) (abstract object : String) : Bool :=
  (schema.possibleTypes abstract).contains object

/-- The name of the type at which operations of a kind start. -/
def rootTypeName? (schema : Schema) : OperationKind → Option String
  | .query => schema.queryType
  | .mutation => schema.mutationType
  | .subscription => schema.subscriptionType

/-- The object type at which operations of a kind start. -/
def rootType? (schema : Schema) (kind : OperationKind) : Option SchemaType :=
  match (schema.rootTypeName? kind).bind schema.type? with
  | some type => if type.isObject then some type else none
  | none => none

/-- Every root type that is set has its conventional name. -/
def hasConventionalRoots (schema : Schema) : Bool :=
  schema.queryType.all (· == "Query") && schema.mutationType.all (· == "Mutation")
    && schema.subscriptionType.all (· == "Subscription")

end Schema

end GraphQL

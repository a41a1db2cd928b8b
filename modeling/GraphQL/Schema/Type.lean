import GraphQL.Document.Literal
import GraphQL.Json
import GraphQL.OrderedMap
import GraphQL.Token

/-!
# Types of a schema
-/

namespace GraphQL

/-- A use of a type: a named type, a list, or a type without null. -/
inductive TypeRef where
  | named (name : String)
  | list (item : TypeRef)
  | nonNull (inner : TypeRef)
  deriving DecidableEq, Repr, Inhabited

namespace TypeRef

/-- The name inside all lists. -/
def innermost : TypeRef → String
  | named name => name
  | list item => item.innermost
  | nonNull inner => inner.innermost

def isNonNull : TypeRef → Bool
  | nonNull _ => true
  | _ => false

/-- The type with null: one exclamation mark less. -/
def nullable : TypeRef → TypeRef
  | nonNull inner => inner
  | type => type

/-- The type of the items, if this is a list. -/
def item? (type : TypeRef) : Option TypeRef :=
  match type.nullable with
  | list item => some item
  | _ => none

def text : TypeRef → String
  | named name => name
  | list item => "[" ++ item.text ++ "]"
  | nonNull inner => inner.text ++ "!"

end TypeRef

/-- The use of a type that an expression spells. -/
def TypeExpression.toTypeRef : TypeExpression → TypeRef
  | named name => .named name.text
  | list item _ => .list item.toTypeRef
  | nonNull inner _ => .nonNull inner.toTypeRef

/-- An argument of a field or directive, or a field of an input object. -/
structure InputValue where
  name : String
  description : Option String := none
  type : TypeRef
  default? : Option Json := none

/-- A field of an object or interface. -/
structure OutputField where
  name : String
  description : Option String := none
  type : TypeRef
  arguments : OrderedMap InputValue := []
  deprecation : Option String := none

structure EnumValue where
  name : String
  description : Option String := none
  deprecation : Option String := none
  deriving DecidableEq, Repr

/-- What kind of type it is, with what belongs to that kind. -/
inductive TypeForm where
  | scalar
  | object (fields : OrderedMap OutputField) (interfaces : List String)
  | interface (fields : OrderedMap OutputField) (interfaces : List String)
  | union (members : List String)
  | enum (values : List EnumValue)
  | inputObject (fields : OrderedMap InputValue)

/-- A named type. -/
structure SchemaType where
  name : String
  description : Option String := none
  form : TypeForm

namespace SchemaType

/-- The fields of an object or interface. -/
def fields? (type : SchemaType) : Option (OrderedMap OutputField) :=
  match type.form with
  | .object fields _ => some fields
  | .interface fields _ => some fields
  | _ => none

/-- Values of the type have selections: it is an object, an interface or a union. -/
def isComposite (type : SchemaType) : Bool :=
  match type.form with
  | .object .. | .interface .. | .union _ => true
  | _ => false

/-- Values of the type are values of some object type. -/
def isAbstract (type : SchemaType) : Bool :=
  match type.form with
  | .interface .. | .union _ => true
  | _ => false

/-- Values of the type are written as they are. -/
def isLeaf (type : SchemaType) : Bool :=
  match type.form with
  | .scalar | .enum _ => true
  | _ => false

def isObject (type : SchemaType) : Bool :=
  match type.form with
  | .object .. => true
  | _ => false

/-- The type may be the type of an argument. -/
def isInput (type : SchemaType) : Bool :=
  match type.form with
  | .scalar | .enum _ | .inputObject _ => true
  | _ => false

/-- Whether an enum has a value, missing for other types. -/
def hasValue? (type : SchemaType) (value : String) : Option Bool :=
  match type.form with
  | .enum values => some (values.any (·.name == value))
  | _ => none

end SchemaType

structure SchemaDirective where
  name : String
  description : Option String := none
  arguments : OrderedMap InputValue := []
  locations : List DirectiveLocation
  repeatable : Bool := false

end GraphQL

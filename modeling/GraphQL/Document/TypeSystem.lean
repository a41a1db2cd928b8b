import GraphQL.Document.Executable
import GraphQL.Token

/-!
# Type system definitions

The part of a document that defines a schema.
-/

namespace GraphQL

/-- The documentation of a definition, without the white space at its ends. -/
structure Description where
  text : String
  span : Span
  deriving DecidableEq, Repr

/-- An argument of a field or directive, or a field of an input object. -/
structure InputValueDefinition where
  description : Option Description
  name : Name
  type : TypeExpression
  default? : Option Literal
  directives : List Directive
  span : Span

structure FieldDefinition where
  description : Option Description
  name : Name
  arguments : List InputValueDefinition
  type : TypeExpression
  directives : List Directive
  span : Span

structure EnumValueDefinition where
  description : Option Description
  name : Name
  directives : List Directive
  span : Span

/-- What a type definition says beside its name. -/
inductive TypeBody where
  | object (implements : List Name) (fields : List FieldDefinition)
  | interface (implements : List Name) (fields : List FieldDefinition)
  | union (members : List Name)
  | enum (values : List EnumValueDefinition)
  | input (fields : List InputValueDefinition)
  | scalar

structure TypeDefinition where
  description : Option Description
  name : Name
  directives : List Directive
  body : TypeBody
  span : Span

/-- The object type of one kind of operation. -/
structure RootOperation where
  kind : OperationKind
  type : Name
  span : Span

structure SchemaDefinition where
  directives : List Directive
  operations : List RootOperation
  span : Span

structure DirectiveDefinition where
  description : Option Description
  name : Name
  arguments : List InputValueDefinition
  repeatable : Bool
  locations : List DirectiveLocation
  span : Span

end GraphQL

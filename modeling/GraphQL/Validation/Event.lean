import GraphQL.Document
import GraphQL.Schema

/-!
# The events of a walk

A walk over a document meets operations, fragments, selections and directives in the order of the
source. An event says what was met and the types known there; rules look at events only. Types that
the schema does not know are missing, and so are those of everything selected on them.
-/

namespace GraphQL

/-- What a walk meets. -/
inductive Event where
  /-- An operation and the type it starts at. -/
  | operation (definition : OperationDefinition) (root : Option SchemaType)
  /-- A fragment and the type of its condition. -/
  | fragment (definition : FragmentDefinition) (type : Option SchemaType)
  /-- A field with the type it is selected on, its definition and the type it returns. -/
  | field (head : FieldSelection) (selections : Option SelectionSet) (parent : Option SchemaType)
      (definition : Option OutputField) (returns : Option SchemaType)
  | spread (head : FragmentSpread)
  /-- An inline fragment and the type of its selections. -/
  | inlineFragment (head : InlineFragment) (type : Option SchemaType)
  | directive (directive : Directive) (location : DirectiveLocation)
  | endOfDocument

namespace Event

/-- The event stands for a definition or a selection, which a limit on the size of documents counts.
-/
def isNode : Event → Bool
  | directive .. => false
  | endOfDocument => false
  | _ => true

def ofDirectives (location : DirectiveLocation) (directives : List Directive) : List Event :=
  directives.map (directive · location)

/-- The type inside an inline fragment on some type. -/
def conditionType (schema : Schema) (outer : Option SchemaType) :
    Option Name → Option SchemaType
  | some name => schema.type? name.text
  | none => outer

/-- The definition of a field on a type that may be unknown. -/
def fieldDefinition (schema : Schema) (parent : Option SchemaType) (head : FieldSelection) :
    Option OutputField :=
  parent.bind fun type => schema.field? type.name head.name.text

/-- The type that a field returns, inside its lists. -/
def returnType (schema : Schema) (definition : Option OutputField) : Option SchemaType :=
  definition.bind fun field => schema.type? field.type.innermost

mutual

def ofSelection (schema : Schema) (type : Option SchemaType) : Selection → List Event
  | .field head selections =>
      let definition := fieldDefinition schema type head
      let returns := returnType schema definition
      field head selections type definition returns :: ofDirectives .field head.directives
        ++ (match selections with
          | none => []
          | some selections => ofSelectionSet schema returns selections)
  | .spread head => spread head :: ofDirectives .fragmentSpread head.directives
  | .inlineFragment head selections =>
      let inner := conditionType schema type head.typeCondition
      inlineFragment head inner :: ofDirectives .inlineFragment head.directives
        ++ ofSelectionSet schema inner selections

def ofSelectionSet (schema : Schema) (type : Option SchemaType) : SelectionSet → List Event
  | ⟨_, items, _⟩ => ofSelections schema type items

def ofSelections (schema : Schema) (type : Option SchemaType) : List Selection → List Event
  | [] => []
  | selection :: rest => ofSelection schema type selection ++ ofSelections schema type rest

end

def operationLocation : OperationKind → DirectiveLocation
  | .query => .query
  | .mutation => .mutation
  | .subscription => .subscription

def ofOperation (schema : Schema) (definition : OperationDefinition) : List Event :=
  let root := (schema.rootTypeName? definition.kind).bind schema.type?
  operation definition root
    :: ofDirectives (operationLocation definition.kind) definition.directives
    ++ definition.variableDefinitions.flatMap (fun declared =>
      ofDirectives .variableDefinition declared.directives)
    ++ ofSelectionSet schema root definition.selections

def ofFragment (schema : Schema) (definition : FragmentDefinition) : List Event :=
  let type := schema.type? definition.typeCondition.text
  fragment definition type :: ofDirectives .fragmentDefinition definition.directives
    ++ ofSelectionSet schema type definition.selections

def ofDefinition (schema : Schema) : Definition → List Event
  | .operation definition => ofOperation schema definition
  | .fragment definition => ofFragment schema definition
  | _ => []

/-- The events of a walk over a whole document. -/
def ofDocument (schema : Schema) (document : Document) : List Event :=
  document.definitions.flatMap (ofDefinition schema) ++ [endOfDocument]

end Event

end GraphQL

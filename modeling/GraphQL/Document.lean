import GraphQL.Document.TypeSystem

/-!
# Documents

A document is a list of definitions, executable ones and those of a type system side by side.
-/

namespace GraphQL

inductive Definition where
  | schema (definition : SchemaDefinition)
  | type (definition : TypeDefinition)
  | directive (definition : DirectiveDefinition)
  | operation (definition : OperationDefinition)
  | fragment (definition : FragmentDefinition)

structure Document where
  definitions : List Definition
  span : Span

namespace Document

def operations (document : Document) : List OperationDefinition :=
  document.definitions.filterMap fun
    | .operation definition => some definition
    | _ => none

def fragments (document : Document) : List FragmentDefinition :=
  document.definitions.filterMap fun
    | .fragment definition => some definition
    | _ => none

def types (document : Document) : List TypeDefinition :=
  document.definitions.filterMap fun
    | .type definition => some definition
    | _ => none

/-- Nothing in the document can be executed. -/
def isTypeSystemOnly (document : Document) : Bool :=
  document.operations.isEmpty && document.fragments.isEmpty

/-- The first fragment with a name is the one that its spreads mean. -/
def fragment? (document : Document) (name : String) : Option FragmentDefinition :=
  document.fragments.find? (·.name.text == name)

end Document

end GraphQL

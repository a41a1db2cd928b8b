import GraphQL.Document.Literal

/-!
# Operations, fragments and selections

The part of a document that is executed. Every selection set of a document carries a number of its
own, given out in the order in which the sets start.
-/

namespace GraphQL

inductive OperationKind where
  | query
  | mutation
  | subscription
  deriving DecidableEq, Repr

def OperationKind.text : OperationKind → String
  | query => "query"
  | mutation => "mutation"
  | subscription => "subscription"

/-- A selected field apart from its own selections. -/
structure FieldSelection where
  responseAlias : Option Name
  name : Name
  arguments : List Argument
  directives : List Directive
  span : Span

/-- The name of the field in the response: its alias if it has one. -/
def FieldSelection.responseKey (field : FieldSelection) : String :=
  (field.responseAlias.getD field.name).text

structure FragmentSpread where
  name : Name
  directives : List Directive
  span : Span

/-- An inline fragment apart from its selections. -/
structure InlineFragment where
  typeCondition : Option Name
  directives : List Directive
  span : Span

mutual

inductive Selection where
  | field (head : FieldSelection) (selections : Option SelectionSet)
  | spread (head : FragmentSpread)
  | inlineFragment (head : InlineFragment) (selections : SelectionSet)

structure SelectionSet where
  id : Nat
  items : List Selection
  span : Span

end

namespace Selection

def span : Selection → Span
  | field head _ => head.span
  | spread head => head.span
  | inlineFragment head _ => head.span

def directives : Selection → List Directive
  | field head _ => head.directives
  | spread head => head.directives
  | inlineFragment head _ => head.directives

end Selection

structure VariableDefinition where
  name : Name
  type : TypeExpression
  default? : Option Literal
  directives : List Directive
  span : Span

structure OperationDefinition where
  kind : OperationKind
  name : Option Name
  variableDefinitions : List VariableDefinition
  directives : List Directive
  selections : SelectionSet
  span : Span

structure FragmentDefinition where
  name : Name
  typeCondition : Name
  directives : List Directive
  selections : SelectionSet
  span : Span

end GraphQL

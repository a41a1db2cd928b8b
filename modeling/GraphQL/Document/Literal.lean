import GraphQL.Source

/-!
# Names, type expressions and literals

The leaves of a document, each with the span it was read from.
-/

namespace GraphQL

/-- A name and its place. -/
structure Name where
  text : String
  span : Span
  deriving DecidableEq, Repr, Inhabited

/-- A type as it is written: a name, a list or a type without null. -/
inductive TypeExpression where
  | named (name : Name)
  | list (item : TypeExpression) (span : Span)
  | nonNull (inner : TypeExpression) (span : Span)
  deriving DecidableEq, Repr, Inhabited

namespace TypeExpression

/-- The name inside all lists. -/
def innermost : TypeExpression → Name
  | named name => name
  | list item _ => item.innermost
  | nonNull inner _ => inner.innermost

def span : TypeExpression → Span
  | named name => name.span
  | list _ span => span
  | nonNull _ span => span

end TypeExpression

/-- A value as it is written. -/
inductive Literal where
  | var (name : Name)
  | int (value : Int) (span : Span)
  | float (value : Float) (span : Span)
  | string (value : String) (span : Span)
  | boolean (value : Bool) (span : Span)
  | null (span : Span)
  | enum (name : Name)
  | list (items : List Literal) (span : Span)
  | object (fields : List (Name × Literal)) (span : Span)
  deriving Inhabited

namespace Literal

def span : Literal → Span
  | var name => name.span
  | int _ span => span
  | float _ span => span
  | string _ span => span
  | boolean _ span => span
  | null span => span
  | enum name => name.span
  | list _ span => span
  | object _ span => span

mutual

/-- The variables of a literal, in the order in which they are written. -/
def variableNames : Literal → List Name
  | var name => [name]
  | list items _ => itemVariables items
  | object fields _ => fieldVariables fields
  | _ => []

def itemVariables : List Literal → List Name
  | [] => []
  | item :: rest => variableNames item ++ itemVariables rest

def fieldVariables : List (Name × Literal) → List Name
  | [] => []
  | (_, value) :: rest => variableNames value ++ fieldVariables rest

end

end Literal

/-- An argument of a field or a directive. -/
structure Argument where
  name : Name
  value : Literal
  span : Span

/-- The use of a directive. -/
structure Directive where
  name : Name
  arguments : List Argument
  span : Span

end GraphQL

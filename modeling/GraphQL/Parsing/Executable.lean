import GraphQL.Document.Executable
import GraphQL.Parsing.Literal

/-!
# Parsing operations and fragments
-/

namespace GraphQL
namespace Parser

def takeSetId : Parser Nat := do
  let state ← get
  set { state with nextSetId := state.nextSetId + 1 }
  return state.nextSetId

/-- A field; `selectionSet` reads the selections of the field itself. -/
def fieldSelection (selectionSet : Parser SelectionSet) : Parser Selection := do
  let start ← position
  let first ← name
  let (responseAlias, name) ←
    if ← eatMark .colon then pure (some first, ← name) else pure (none, first)
  let arguments ← arguments
  let directives ← directives
  let selections ←
    if ← isAt (.punctuator .openBrace) then pure (some (← selectionSet)) else pure none
  return .field { responseAlias, name, arguments, directives, span := ← spanFrom start } selections

/-- What follows the three dots: an inline fragment or the name of a fragment. -/
def spreadSelection (start : Nat) (selectionSet : Parser SelectionSet) : Parser Selection := do
  if ← eat (.keyword .onCondition) then
    let typeCondition ← name
    let directives ← directives
    let selections ← selectionSet
    return .inlineFragment
      { typeCondition := some typeCondition, directives, span := ← spanFrom start } selections
  else if (← isAt (.punctuator .openBrace)) || (← isAt (.punctuator .atSign)) then
    let directives ← directives
    let selections ← selectionSet
    return .inlineFragment
      { typeCondition := none, directives, span := ← spanFrom start } selections
  else
    let name ← name
    let directives ← directives
    return .spread { name, directives, span := ← spanFrom start }

def selection (selectionSet : Parser SelectionSet) : Parser Selection := do
  let start ← position
  if ← eatMark .spread then spreadSelection start selectionSet else fieldSelection selectionSet

/-- A selection set nested at most so deep. -/
def selectionSetWithin : Nat → Parser SelectionSet
  | 0 => do
      let start ← position
      return { id := ← takeSetId, items := [], span := ← spanFrom start }
  | depth + 1 => do
      let start ← position
      let id ← takeSetId
      let items ←
        if ← expect (.punctuator .openBrace) then
          itemsThrough .closeBrace (selection (selectionSetWithin depth))
        else pure []
      return { id, items, span := ← spanFrom start }

def selectionSet : Parser SelectionSet := do
  selectionSetWithin (← depthBound)

def variableDefinition : Parser VariableDefinition := do
  let start ← position
  expectMark .dollar
  let name ← name
  expectMark .colon
  let type ← typeExpression
  let default? ← defaultValue
  let directives ← directives
  return { name, type, default?, directives, span := ← spanFrom start }

/-- The kind of operation that a keyword opens. -/
def operationKind? : TokenKind → Option OperationKind
  | .keyword .query => some .query
  | .keyword .mutation => some .mutation
  | .keyword .subscription => some .subscription
  | _ => none

/-- The keyword and the name of an operation; a query may leave out both. -/
def operationHead : Parser (OperationKind × Option Name) := do
  if ← isAt (.punctuator .openBrace) then return (.query, none)
  else
    let kind := (operationKind? (← kind)).getD .query
    advance
    if (← Parser.kind).isName then return (kind, some (← name)) else return (kind, none)

def operation : Parser OperationDefinition := do
  let start ← position
  let (kind, name) ← operationHead
  let variableDefinitions ← optionalItems .openParen .closeParen variableDefinition
  let directives ← directives
  let selections ← selectionSet
  return { kind, name, variableDefinitions, directives, selections, span := ← spanFrom start }

def fragment : Parser FragmentDefinition := do
  let start ← position
  advance
  let name ← name
  let _ ← expect (.keyword .onCondition)
  let typeCondition ← Parser.name
  let directives ← directives
  let selections ← selectionSet
  return { name, typeCondition, directives, selections, span := ← spanFrom start }

end Parser
end GraphQL

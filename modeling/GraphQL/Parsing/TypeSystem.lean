import GraphQL.Document.TypeSystem
import GraphQL.Parsing.Executable

/-!
# Parsing type system definitions
-/

namespace GraphQL
namespace Parser

/-- The string ahead, if there is one, as a description. Its escapes stay as they are written. -/
def description? : Parser (Option Description) := do
  let span ← currentSpan
  let kind ← kind
  if kind == .string || kind == .blockString then
    let text ← currentText
    advance
    let body := bodyBetween (if kind == .string then 1 else 3) text
    return some ⟨String.ofList (Text.trim body), span⟩
  else return none

/-- A definition starts at its description, if it has one. -/
def startWith (description : Option Description) : Parser Nat := do
  match description with
  | some description => return description.span.start
  | none => position

def inputValueDefinition : Parser InputValueDefinition := do
  let start ← position
  let description ← description?
  let name ← name
  expectMark .colon
  let type ← typeExpression
  let default? ← defaultValue
  let directives ← directives
  return { description, name, type, default?, directives, span := ← spanFrom start }

def argumentDefinitions : Parser (List InputValueDefinition) :=
  optionalItems .openParen .closeParen inputValueDefinition

def fieldDefinition : Parser FieldDefinition := do
  let start ← position
  let description ← description?
  let name ← name
  let arguments ← argumentDefinitions
  expectMark .colon
  let type ← typeExpression
  let directives ← directives
  return { description, name, arguments, type, directives, span := ← spanFrom start }

def fieldDefinitions : Parser (List FieldDefinition) :=
  optionalItems .openBrace .closeBrace fieldDefinition

def enumValueDefinition : Parser EnumValueDefinition := do
  let start ← position
  let description ← description?
  let name ← name
  let directives ← directives
  return { description, name, directives, span := ← spanFrom start }

/-- The interfaces after their keyword; an ampersand may come first. -/
def implementedInterfaces : Parser (List Name) := do
  if ← eat (.keyword .implements) then
    let _ ← eatMark .ampersand
    separatedItems .ampersand name
  else return []

/-- The members after the equals sign; a bar may come first. -/
def unionMembers : Parser (List Name) := do
  if ← eatMark .equals then
    let _ ← eatMark .pipe
    separatedItems .pipe name
  else return []

/-- The directives of a type and what its body says, by the keyword that opened it. -/
def typeBody (keyword : Keyword) : Parser (List Directive × TypeBody) := do
  match keyword with
  | .interface =>
      let implements ← implementedInterfaces
      let directives ← directives
      return (directives, .interface implements (← fieldDefinitions))
  | .union =>
      let directives ← directives
      return (directives, .union (← unionMembers))
  | .enum =>
      let directives ← directives
      return (directives, .enum (← optionalItems .openBrace .closeBrace enumValueDefinition))
  | .input =>
      let directives ← directives
      return (directives, .input (← optionalItems .openBrace .closeBrace inputValueDefinition))
  | .scalar => return (← directives, .scalar)
  | _ =>
      let implements ← implementedInterfaces
      let directives ← directives
      return (directives, .object implements (← fieldDefinitions))

def typeDefinition (keyword : Keyword) (description : Option Description) :
    Parser TypeDefinition := do
  let start ← startWith description
  advance
  let name ← name
  let (directives, body) ← typeBody keyword
  return { description, name, directives, body, span := ← spanFrom start }

/-- A root operation; what is not the kind of one is skipped. -/
def rootOperation? : Parser (Option RootOperation) := do
  let start ← position
  match operationKind? (← kind) with
  | none =>
      reportCurrent "Expected an operation type"
      advance
      return none
  | some kind =>
      advance
      expectMark .colon
      let type ← name
      return some { kind, type, span := ← spanFrom start }

def schemaDefinition : Parser SchemaDefinition := do
  let start ← position
  advance
  let directives ← directives
  expectMark .openBrace
  let operations ← itemsThrough .closeBrace rootOperation?
  return { directives, operations := operations.filterMap id, span := ← spanFrom start }

/-- At most so many locations with bars between them; the first word that is none ends the list. -/
def directiveLocationsWithin : Nat → Parser (List DirectiveLocation)
  | 0 => return []
  | fuel + 1 => do
      let text ← currentText
      match DirectiveLocation.ofText? text, (← kind).isName with
      | some location, true =>
          advance
          if ← eatMark .pipe then return location :: (← directiveLocationsWithin fuel)
          else return [location]
      | _, _ =>
          reportCurrent "Expected a directive location"
          return []

def directiveDefinition (description : Option Description) : Parser DirectiveDefinition := do
  let start ← startWith description
  advance
  expectMark .atSign
  let name ← name
  let arguments ← argumentDefinitions
  let repeatable ← eat (.keyword .repeatable)
  let _ ← expect (.keyword .onCondition)
  let _ ← eatMark .pipe
  let locations ← directiveLocationsWithin (← depthBound)
  return { description, name, arguments, repeatable, locations, span := ← spanFrom start }

end Parser
end GraphQL

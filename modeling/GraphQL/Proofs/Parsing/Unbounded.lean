import GraphQL.Proofs.Parsing.Ahead

/-!
# Parsing without bounds

The parser that reads documents counts the tokens ahead, and no loop and no nesting goes on for
longer than that. The parser here has no such bounds: a loop goes on until it meets what ends it, and
a nested production calls the one around it. Only the depth of such calls is limited, as a stack
limits it, and a run that needs more has no outcome. So a run that never ends has no outcome at any
limit. It recovers by looking where an item of a list started and where it ended.

A run also keeps a ledger of its deeds: which tokens it consumed, which of them were skipped
because an item had consumed nothing, and how many tokens were ahead before and after each turn of a
loop and each step into a nested production.
-/

namespace GraphQL
namespace Parser
namespace Unbounded

variable {α : Type}

/-- What a run does. -/
inductive Deed where
  | consume (token : Token)
  /-- A token is skipped after an item of a list has consumed nothing. -/
  | discard (token : Token)
  /-- A turn of a loop is over, and the loop goes on. -/
  | turn (before after : Nat)
  /-- A production comes to where productions of its kind can stand inside it. -/
  | descend (before after : Nat)
  deriving DecidableEq, Repr

namespace Deed

/-- The token that is gone after the deed. -/
def token? : Deed → Option Token
  | consume token => some token
  | discard token => some token
  | turn _ _ => none
  | descend _ _ => none

/-- Loops and nested productions leave fewer tokens ahead. -/
def Progresses : Deed → Prop
  | consume _ => True
  | discard _ => True
  | turn before after => after < before
  | descend before after => after < before

end Deed

/-- The state of a run and what it has done so far. -/
structure Ledger where
  state : ParserState
  deeds : List Deed

/-- A run under a limit on the depth of calls; it may fail to end below the limit. -/
abbrev FreeRun := ReaderT Nat (StateT Ledger (ExceptT SliceFault Option))

/-- The outcome of a run, or nothing if it needs calls deeper than the limit. -/
def FreeRun.outcome? (run : FreeRun α) (limit : Nat) (ledger : Ledger) :
    Option (Except SliceFault (α × Ledger)) :=
  run limit ledger

/-- A run that calls itself: as often as it has to, but not deeper than the limit. -/
def FreeRun.recursive (body : FreeRun α → FreeRun α) : FreeRun α
  | 0 => fun _ => none
  | limit + 1 => body (fun _ => recursive body limit) (limit + 1)

/-- Runs a parser and enters nothing in the ledger. -/
def unrecorded (parser : Parser α) : FreeRun α := fun _ ledger =>
  match parser ledger.state with
  | .ok (value, after) => some (.ok (value, { ledger with state := after }))
  | .error fault => some (.error fault)

instance : MonadLift Parser FreeRun :=
  ⟨unrecorded⟩

def note (deed : Deed) : FreeRun Unit :=
  modifyThe Ledger fun ledger => { ledger with deeds := ledger.deeds ++ [deed] }

/-- The state itself, without what has been done. -/
def here : Parser ParserState :=
  get

/-- The number of tokens ahead, without the mark of the end. -/
def ahead : Parser Nat := do
  return (← get).upcoming.length

def advance : FreeRun Unit := do
  note (.consume (← here).current)
  Parser.advance

/-- An item of a list has ended where it started. -/
def isStuckAt (start : Nat) (state : ParserState) : Bool :=
  state.current.span.start = start && state.current.kind != .endOfInput

/-- Skips the current token if it is the one that an item of a list started at. -/
def recoverFrom (start : Nat) : FreeRun Unit := do
  let state ← here
  if isStuckAt start state then
    note (.discard state.current)
    Parser.advance

def endTurn (before : Nat) : FreeRun Unit := do
  note (.turn before (← ahead))

def descend (before : Nat) : FreeRun Unit := do
  note (.descend before (← ahead))

def eat (expected : TokenKind) : FreeRun Bool := do
  if ← isAt expected then
    advance
    return true
  else return false

def eatMark (mark : Punctuator) : FreeRun Bool :=
  eat (.punctuator mark)

def expect (expected : TokenKind) : FreeRun Bool := do
  if ← eat expected then return true
  else
    reportExpected expected
    return false

def expectMark (mark : Punctuator) : FreeRun Unit := do
  let _ ← expect (.punctuator mark)

def name : FreeRun Name := do
  let state ← here
  if state.current.kind.isName then
    let text ← currentText
    intern text
    advance
    return ⟨text, state.current.span⟩
  else
    reportCurrent "Expected a name"
    if state.current.kind == .endOfInput then
      let _ ← currentText
    intern ""
    return ⟨"", state.current.span⟩

/-! ## Lists -/

/-- Items up to a closing token. An item that consumes nothing costs the token it stopped at. -/
def itemsUntil (closing : Punctuator) (item : FreeRun α) : FreeRun (List α) :=
  .recursive fun others => do
    if ← isAtEndOf closing then return []
    else
      let before ← ahead
      let start ← position
      let first ← item
      recoverFrom start
      endTurn before
      return first :: (← others)

def itemsThrough (closing : Punctuator) (item : FreeRun α) : FreeRun (List α) := do
  let items ← itemsUntil closing item
  expectMark closing
  return items

def optionalItems (opening closing : Punctuator) (item : FreeRun α) : FreeRun (List α) := do
  if ← eatMark opening then itemsThrough closing item else return []

/-- Items that each come after a separator. -/
def furtherItems (separator : Punctuator) (item : FreeRun α) : FreeRun (List α) :=
  .recursive fun others => do
    let before ← ahead
    if ← eatMark separator then
      let first ← item
      endTurn before
      return first :: (← others)
    else return []

def separatedItems (separator : Punctuator) (item : FreeRun α) : FreeRun (List α) := do
  let first ← item
  return first :: (← furtherItems separator item)

/-- The items ahead that each start with the same token. -/
def repeatedItems (leading : Punctuator) (item : FreeRun α) : FreeRun (List α) :=
  .recursive fun others => do
    let before ← ahead
    if ← isAt (.punctuator leading) then
      let first ← item
      endTurn before
      return first :: (← others)
    else return []

/-! ## Type expressions, literals and directives -/

def typeExpression : FreeRun TypeExpression :=
  .recursive fun inner => do
    let before ← ahead
    let start ← position
    let type ←
      if ← eatMark .openBracket then
        descend before
        let item ← inner
        expectMark .closeBracket
        pure (.list item (← spanFrom start))
      else pure (.named (← name))
    if ← eatMark .bang then return .nonNull type (← spanFrom start) else return type

def intLiteral : FreeRun Literal := do
  let text ← currentText
  let span ← currentSpan
  advance
  let value := wholeNumber text
  if Json.fitsInt64 value then return .int value span
  else
    report ((Diagnostic.error .invalidSource
      ("Integer literal " ++ text ++ " is out of range")).withLabel span "out of range")
    return .null span

def variableLiteral (constant : Bool) : FreeRun Literal := do
  let start ← position
  advance
  let name ← name
  let span ← spanFrom start
  if constant then
    report ((Diagnostic.error .invalidSource
      "Variables are not allowed in constant values").withLabel span "variable used here")
  return .var ⟨name.text, span⟩

def simpleLiteral : FreeRun Literal := do
  let span ← currentSpan
  match ← kind with
  | .int => intLiteral
  | .float =>
      let text ← currentText
      advance
      return .float (Decimal.readNearest text) span
  | .string =>
      let text ← currentText
      advance
      return .string (String.ofList (Text.unescape (bodyBetween 1 text))) span
  | .blockString =>
      let text ← currentText
      advance
      let value ← (liftM (Text.blockValue (bodyBetween 3 text)) : Parser String)
      return .string value span
  | .keyword .trueValue => advance; return .boolean true span
  | .keyword .falseValue => advance; return .boolean false span
  | .keyword .nullValue => advance; return .null span
  | kind =>
      if kind.isName then return .enum (← name)
      else
        reportCurrent "Expected a value"
        return .null span

/-- A field of an object; `inner` reads its value. -/
def literalField (inner : FreeRun Literal) : FreeRun (Name × Literal) := do
  let name ← name
  expectMark .colon
  return (name, ← inner)

def literal (constant : Bool) : FreeRun Literal :=
  .recursive fun inner => do
    let before ← ahead
    let start ← position
    match ← kind with
    | .punctuator .dollar => variableLiteral constant
    | .punctuator .openBracket =>
        advance
        descend before
        let items ← itemsThrough .closeBracket inner
        return .list items (← spanFrom start)
    | .punctuator .openBrace =>
        advance
        descend before
        let fields ← itemsThrough .closeBrace (literalField inner)
        return .object fields (← spanFrom start)
    | _ => simpleLiteral

def argument : FreeRun Argument := do
  let start ← position
  let name ← name
  expectMark .colon
  let value ← literal false
  return { name, value, span := ← spanFrom start }

def arguments : FreeRun (List Argument) :=
  optionalItems .openParen .closeParen argument

def directive : FreeRun Directive := do
  let start ← position
  advance
  let name ← name
  let arguments ← arguments
  return { name, arguments, span := ← spanFrom start }

def directives : FreeRun (List Directive) :=
  repeatedItems .atSign directive

def defaultValue : FreeRun (Option Literal) := do
  if ← eatMark .equals then return some (← literal true) else return none

/-! ## Operations and fragments -/

/-- A field; `selectionSet` reads the selections of the field itself. -/
def fieldSelection (selectionSet : FreeRun SelectionSet) : FreeRun Selection := do
  let start ← position
  let first ← name
  let (responseAlias, name) ←
    if ← eatMark .colon then pure (some first, ← name) else pure (none, first)
  let arguments ← arguments
  let directives ← directives
  let selections ←
    if ← isAt (.punctuator .openBrace) then pure (some (← selectionSet)) else pure none
  return .field { responseAlias, name, arguments, directives, span := ← spanFrom start } selections

def spreadSelection (start : Nat) (selectionSet : FreeRun SelectionSet) : FreeRun Selection := do
  if ← eat (.keyword .onCondition) then
    let typeCondition ← name
    let directives ← directives
    let selections ← selectionSet
    return .inlineFragment
      { typeCondition := some typeCondition, directives, span := ← spanFrom start } selections
  else if (← isAt (.punctuator .openBrace)) || (← isAt (.punctuator .atSign)) then
    let directives ← directives
    let selections ← selectionSet
    return .inlineFragment
      { typeCondition := none, directives, span := ← spanFrom start } selections
  else
    let name ← name
    let directives ← directives
    return .spread { name, directives, span := ← spanFrom start }

def selection (selectionSet : FreeRun SelectionSet) : FreeRun Selection := do
  let start ← position
  if ← eatMark .spread then spreadSelection start selectionSet else fieldSelection selectionSet

def selectionSet : FreeRun SelectionSet :=
  .recursive fun inner => do
    let before ← ahead
    let start ← position
    let id ← takeSetId
    let items ←
      if ← expect (.punctuator .openBrace) then
        descend before
        itemsThrough .closeBrace (selection inner)
      else pure []
    return { id, items, span := ← spanFrom start }

def variableDefinition : FreeRun VariableDefinition := do
  let start ← position
  expectMark .dollar
  let name ← name
  expectMark .colon
  let type ← typeExpression
  let default? ← defaultValue
  let directives ← directives
  return { name, type, default?, directives, span := ← spanFrom start }

def operationHead : FreeRun (OperationKind × Option Name) := do
  if ← isAt (.punctuator .openBrace) then return (.query, none)
  else
    let kind := (operationKind? (← kind)).getD .query
    advance
    if (← Parser.kind).isName then return (kind, some (← name)) else return (kind, none)

def operation : FreeRun OperationDefinition := do
  let start ← position
  let (kind, name) ← operationHead
  let variableDefinitions ← optionalItems .openParen .closeParen variableDefinition
  let directives ← directives
  let selections ← selectionSet
  return { kind, name, variableDefinitions, directives, selections, span := ← spanFrom start }

def fragment : FreeRun FragmentDefinition := do
  let start ← position
  advance
  let name ← name
  let _ ← expect (.keyword .onCondition)
  let typeCondition ← Unbounded.name
  let directives ← directives
  let selections ← selectionSet
  return { name, typeCondition, directives, selections, span := ← spanFrom start }

/-! ## Type system definitions -/

def description? : FreeRun (Option Description) := do
  let span ← currentSpan
  let kind ← kind
  if kind == .string || kind == .blockString then
    let text ← currentText
    advance
    let body := bodyBetween (if kind == .string then 1 else 3) text
    return some ⟨String.ofList (Text.trim body), span⟩
  else return none

def inputValueDefinition : FreeRun InputValueDefinition := do
  let start ← position
  let description ← description?
  let name ← name
  expectMark .colon
  let type ← typeExpression
  let default? ← defaultValue
  let directives ← directives
  return { description, name, type, default?, directives, span := ← spanFrom start }

def argumentDefinitions : FreeRun (List InputValueDefinition) :=
  optionalItems .openParen .closeParen inputValueDefinition

def fieldDefinition : FreeRun FieldDefinition := do
  let start ← position
  let description ← description?
  let name ← name
  let arguments ← argumentDefinitions
  expectMark .colon
  let type ← typeExpression
  let directives ← directives
  return { description, name, arguments, type, directives, span := ← spanFrom start }

def fieldDefinitions : FreeRun (List FieldDefinition) :=
  optionalItems .openBrace .closeBrace fieldDefinition

def enumValueDefinition : FreeRun EnumValueDefinition := do
  let start ← position
  let description ← description?
  let name ← name
  let directives ← directives
  return { description, name, directives, span := ← spanFrom start }

def implementedInterfaces : FreeRun (List Name) := do
  if ← eat (.keyword .implements) then
    let _ ← eatMark .ampersand
    separatedItems .ampersand name
  else return []

def unionMembers : FreeRun (List Name) := do
  if ← eatMark .equals then
    let _ ← eatMark .pipe
    separatedItems .pipe name
  else return []

def typeBody (keyword : Keyword) : FreeRun (List Directive × TypeBody) := do
  match keyword with
  | .interface =>
      let implements ← implementedInterfaces
      let directives ← directives
      return (directives, .interface implements (← fieldDefinitions))
  | .union =>
      let directives ← directives
      return (directives, .union (← unionMembers))
  | .enum =>
      let directives ← directives
      return (directives, .enum (← optionalItems .openBrace .closeBrace enumValueDefinition))
  | .input =>
      let directives ← directives
      return (directives, .input (← optionalItems .openBrace .closeBrace inputValueDefinition))
  | .scalar => return (← directives, .scalar)
  | _ =>
      let implements ← implementedInterfaces
      let directives ← directives
      return (directives, .object implements (← fieldDefinitions))

def typeDefinition (keyword : Keyword) (description : Option Description) :
    FreeRun TypeDefinition := do
  let start ← startWith description
  advance
  let name ← name
  let (directives, body) ← typeBody keyword
  return { description, name, directives, body, span := ← spanFrom start }

def rootOperation? : FreeRun (Option RootOperation) := do
  let start ← position
  match operationKind? (← kind) with
  | none =>
      reportCurrent "Expected an operation type"
      advance
      return none
  | some kind =>
      advance
      expectMark .colon
      let type ← name
      return some { kind, type, span := ← spanFrom start }

/-- Nothing is skipped between root operations: each turn consumes a token itself. -/
def rootOperations : FreeRun (List (Option RootOperation)) :=
  .recursive fun others => do
    if ← isAtEndOf .closeBrace then return []
    else
      let before ← ahead
      let first ← rootOperation?
      endTurn before
      return first :: (← others)

def schemaDefinition : FreeRun SchemaDefinition := do
  let start ← position
  advance
  let directives ← directives
  expectMark .openBrace
  let operations ← rootOperations
  expectMark .closeBrace
  return { directives, operations := operations.filterMap id, span := ← spanFrom start }

def directiveLocations : FreeRun (List DirectiveLocation) :=
  .recursive fun others => do
    let before ← ahead
    let text ← currentText
    match DirectiveLocation.ofText? text, (← kind).isName with
    | some location, true =>
        advance
        if ← eatMark .pipe then
          endTurn before
          return location :: (← others)
        else return [location]
    | _, _ =>
        reportCurrent "Expected a directive location"
        return []

def directiveDefinition (description : Option Description) : FreeRun DirectiveDefinition := do
  let start ← startWith description
  advance
  expectMark .atSign
  let name ← name
  let arguments ← argumentDefinitions
  let repeatable ← eat (.keyword .repeatable)
  let _ ← expect (.keyword .onCondition)
  let _ ← eatMark .pipe
  let locations ← directiveLocations
  return { description, name, arguments, repeatable, locations, span := ← spanFrom start }

/-! ## Documents -/

def definitionAfter (description : Option Description) : FreeRun (Option Definition) := do
  match ← kind with
  | .keyword .schema => return some (.schema (← schemaDefinition))
  | .keyword .directive => return some (.directive (← directiveDefinition description))
  | .keyword .fragment => return some (.fragment (← fragment))
  | .keyword .query => return some (.operation (← operation))
  | .keyword .mutation => return some (.operation (← operation))
  | .keyword .subscription => return some (.operation (← operation))
  | .punctuator .openBrace => return some (.operation (← operation))
  | .keyword .typeDefinition => return some (.type (← typeDefinition .typeDefinition description))
  | .keyword .interface => return some (.type (← typeDefinition .interface description))
  | .keyword .union => return some (.type (← typeDefinition .union description))
  | .keyword .enum => return some (.type (← typeDefinition .enum description))
  | .keyword .input => return some (.type (← typeDefinition .input description))
  | .keyword .scalar => return some (.type (← typeDefinition .scalar description))
  | .keyword .extend =>
      reportCurrent "type extensions are not supported"
      return none
  | _ =>
      reportCurrent "Expected a definition"
      return none

def definition? : FreeRun (Option Definition) := do
  definitionAfter (← description?)

def definitions : FreeRun (List Definition) :=
  .recursive fun others => do
    if ← isAt .endOfInput then return []
    else
      let before ← ahead
      let start ← position
      let first ← definition?
      recoverFrom start
      endTurn before
      return first.toList ++ (← others)

def document : FreeRun Document := do
  let start ← position
  let definitions ← definitions
  return { definitions, span := ← spanFrom start }

end Unbounded
end Parser

end GraphQL

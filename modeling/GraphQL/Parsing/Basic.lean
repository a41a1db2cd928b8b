import GraphQL.Diagnostic
import GraphQL.Document.Literal
import GraphQL.Interner
import GraphQL.Token

/-!
# Parsing

A parser looks at the current token, consumes tokens and reports what it does not expect; it goes on
after an error, so one run finds every error of a source. The only thing that stops it is a fault:
the text of a token that reaches past the end of the source.

Lists end at a closing token or at the end of the input. An item that consumes nothing costs the
token it stopped at, so that every turn takes a token; the number of tokens left therefore bounds
every loop and every nesting.
-/

namespace GraphQL

/-- The tokens ahead and what has been found so far. The last token marks the end of the input and
is never consumed. -/
structure ParserState where
  current : Token
  upcoming : List Token
  /-- The end of the last token consumed. -/
  previousEnd : Nat
  /-- The number of the next selection set. -/
  nextSetId : Nat
  interner : Interner
  diagnostics : List Diagnostic

abbrev Parser := StateT ParserState (Except SliceFault)

namespace Parser

variable {α : Type}

def kind : Parser TokenKind := do
  return (← get).current.kind

def currentSpan : Parser Span := do
  return (← get).current.span

/-- Where the current token starts. -/
def position : Parser Nat := do
  return (← get).current.span.start

def isAt (expected : TokenKind) : Parser Bool := do
  return (← kind) == expected

/-- At a closing token or at the end of the input. -/
def isAtEndOf (closing : Punctuator) : Parser Bool := do
  let kind ← kind
  return kind == .punctuator closing || kind == .endOfInput

/-- Consumes the current token. -/
def advance : Parser Unit :=
  modify fun state =>
    match state.upcoming with
    | [] => { state with previousEnd := state.current.span.stop }
    | next :: others =>
        { state with
          current := next, upcoming := others, previousEnd := state.current.span.stop }

/-- Consumes a token if it is the current one. -/
def eat (expected : TokenKind) : Parser Bool := do
  if ← isAt expected then
    advance
    return true
  else return false

def report (diagnostic : Diagnostic) : Parser Unit :=
  modify fun state => { state with diagnostics := state.diagnostics ++ [diagnostic] }

/-- Reports that the current token does not fit. -/
def reportCurrent (title : String) : Parser Unit := do
  let state ← get
  report ((Diagnostic.error .invalidSource title).withLabel state.current.span
    ("found " ++ state.current.kind.text))

def reportExpected (expected : TokenKind) : Parser Unit := do
  let state ← get
  let title := "Expected " ++ expected.text ++ ", found " ++ state.current.kind.text
  report ((Diagnostic.error .unexpectedToken title).withLabel state.current.span
    ("expected " ++ expected.text))

/-- Consumes a token, or reports that it is missing. -/
def expect (expected : TokenKind) : Parser Bool := do
  if ← eat expected then return true
  else
    reportExpected expected
    return false

def expectMark (mark : Punctuator) : Parser Unit := do
  let _ ← expect (.punctuator mark)

def eatMark (mark : Punctuator) : Parser Bool :=
  eat (.punctuator mark)

/-- The span from an offset to the end of the last token consumed. -/
def spanFrom (start : Nat) : Parser Span := do
  return ⟨start, max (← get).previousEnd start⟩

def currentText : Parser String := do
  match (← get).current.text? with
  | some text => return text
  | none => throw .pastEnd

def intern (name : String) : Parser Unit :=
  modify fun state => { state with interner := state.interner.intern name }

/-- A name; where none stands, the empty name at the current token. The empty name too is a piece of
the source, so looking it up past the end is a fault. -/
def name : Parser Name := do
  let state ← get
  if state.current.kind.isName then
    let text ← currentText
    intern text
    advance
    return ⟨text, state.current.span⟩
  else
    reportCurrent "Expected a name"
    if state.current.kind == .endOfInput then
      let _ ← currentText
    intern ""
    return ⟨"", state.current.span⟩

/-- Runs an item of a list. If it consumes nothing, the token it stopped at is skipped. -/
def progressing (item : Parser α) : Parser α := do
  let before ← get
  let result ← item
  let after ← get
  if after.upcoming.length = before.upcoming.length && after.current.kind != .endOfInput then
    advance
  return result

/-- At most so many items up to a closing token. -/
def itemsWithin (closing : Punctuator) (item : Parser α) : Nat → Parser (List α)
  | 0 => return []
  | fuel + 1 => do
      if ← isAtEndOf closing then return []
      else
        let first ← progressing item
        return first :: (← itemsWithin closing item fuel)

/-- The items up to a closing token. -/
def itemsUntil (closing : Punctuator) (item : Parser α) : Parser (List α) := do
  itemsWithin closing item ((← get).upcoming.length + 1)

/-- Items up to a closing token, which is consumed as well. -/
def itemsThrough (closing : Punctuator) (item : Parser α) : Parser (List α) := do
  let items ← itemsUntil closing item
  expectMark closing
  return items

/-- Items between two tokens, or none if the opening token is not there. -/
def optionalItems (opening closing : Punctuator) (item : Parser α) : Parser (List α) := do
  if ← eatMark opening then itemsThrough closing item else return []

/-- At most so many items, each after a separator. -/
def furtherItems (separator : Punctuator) (item : Parser α) : Nat → Parser (List α)
  | 0 => return []
  | fuel + 1 => do
      if ← eatMark separator then
        let first ← item
        return first :: (← furtherItems separator item fuel)
      else return []

/-- One or more items with a separator between them. -/
def separatedItems (separator : Punctuator) (item : Parser α) : Parser (List α) := do
  let first ← item
  return first :: (← furtherItems separator item ((← get).upcoming.length + 1))

/-- At most so many items that each start with the same token. -/
def leadItems (leading : Punctuator) (item : Parser α) : Nat → Parser (List α)
  | 0 => return []
  | fuel + 1 => do
      if ← isAt (.punctuator leading) then
        let first ← item
        return first :: (← leadItems leading item fuel)
      else return []

/-- The items ahead that each start with the same token. -/
def repeatedItems (leading : Punctuator) (item : Parser α) : Parser (List α) := do
  leadItems leading item ((← get).upcoming.length + 1)

/-- How deep the tokens ahead can nest. -/
def depthBound : Parser Nat := do
  return (← get).upcoming.length + 1

end Parser

end GraphQL

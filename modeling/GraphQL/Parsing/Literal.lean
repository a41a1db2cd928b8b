import GraphQL.Decimal.Reading
import GraphQL.Document.Literal
import GraphQL.Json
import GraphQL.Parsing.Basic
import GraphQL.Text.Block
import GraphQL.Text.Quoted

/-!
# Parsing type expressions, literals and directives
-/

namespace GraphQL
namespace Parser

/-- The characters between the quotes of a string token. -/
def bodyBetween (quotes : Nat) (text : String) : List Char :=
  ((text.toList.drop quotes).reverse.drop quotes).reverse

/-- A type expression nested at most so deep. -/
def typeExpressionWithin : Nat → Parser TypeExpression
  | 0 => return .named (← name)
  | depth + 1 => do
      let start ← position
      let type ←
        if ← eatMark .openBracket then
          let item ← typeExpressionWithin depth
          expectMark .closeBracket
          pure (.list item (← spanFrom start))
        else pure (.named (← name))
      if ← eatMark .bang then return .nonNull type (← spanFrom start) else return type

def typeExpression : Parser TypeExpression := do
  typeExpressionWithin (← depthBound)

/-- The whole number that a literal spells. -/
def wholeNumber (text : String) : Int :=
  match text.toList with
  | '-' :: digits => -(Decimal.digitsValue 0 digits : Int)
  | digits => Decimal.digitsValue 0 digits

/-- A whole number; one that does not fit in 64 bits is reported and stands for null. -/
def intLiteral : Parser Literal := do
  let text ← currentText
  let span ← currentSpan
  advance
  let value := wholeNumber text
  if Json.fitsInt64 value then return .int value span
  else
    report ((Diagnostic.error .invalidSource
      ("Integer literal " ++ text ++ " is out of range")).withLabel span "out of range")
    return .null span

/-- A variable, which a constant must not hold. -/
def variableLiteral (constant : Bool) : Parser Literal := do
  let start ← position
  advance
  let name ← name
  let span ← spanFrom start
  if constant then
    report ((Diagnostic.error .invalidSource
      "Variables are not allowed in constant values").withLabel span "variable used here")
  return .var ⟨name.text, span⟩

/-- A literal that is neither a variable nor a list nor an object. -/
def simpleLiteral : Parser Literal := do
  let span ← currentSpan
  match ← kind with
  | .int => intLiteral
  | .float =>
      let text ← currentText
      advance
      return .float (Decimal.readNearest text) span
  | .string =>
      let text ← currentText
      advance
      return .string (String.ofList (Text.unescape (bodyBetween 1 text))) span
  | .blockString =>
      let text ← currentText
      advance
      let value ← (Text.blockValue (bodyBetween 3 text) : Except SliceFault String)
      return .string value span
  | .keyword .trueValue => advance; return .boolean true span
  | .keyword .falseValue => advance; return .boolean false span
  | .keyword .nullValue => advance; return .null span
  | kind =>
      if kind.isName then return .enum (← name)
      else
        reportCurrent "Expected a value"
        return .null span

/-- A literal nested at most so deep. -/
def literalWithin (constant : Bool) : Nat → Parser Literal
  | 0 => simpleLiteral
  | depth + 1 => do
      let start ← position
      match ← kind with
      | .punctuator .dollar => variableLiteral constant
      | .punctuator .openBracket =>
          advance
          let items ← itemsThrough .closeBracket (literalWithin constant depth)
          return .list items (← spanFrom start)
      | .punctuator .openBrace =>
          advance
          let fields ← itemsThrough .closeBrace (do
            let name ← name
            expectMark .colon
            return (name, ← literalWithin constant depth))
          return .object fields (← spanFrom start)
      | _ => simpleLiteral

def literal (constant : Bool) : Parser Literal := do
  literalWithin constant (← depthBound)

def argument : Parser Argument := do
  let start ← position
  let name ← name
  expectMark .colon
  let value ← literal false
  return { name, value, span := ← spanFrom start }

def arguments : Parser (List Argument) :=
  optionalItems .openParen .closeParen argument

def directive : Parser Directive := do
  let start ← position
  advance
  let name ← name
  let arguments ← arguments
  return { name, arguments, span := ← spanFrom start }

def directives : Parser (List Directive) :=
  repeatedItems .atSign directive

/-- The value after an equals sign, if there is one. -/
def defaultValue : Parser (Option Literal) := do
  if ← eatMark .equals then return some (← literal true) else return none

end Parser
end GraphQL

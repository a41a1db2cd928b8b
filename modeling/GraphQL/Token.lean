import GraphQL.Source

/-!
# Tokens

The lexical elements of a document. Keywords are contextual: wherever a name may stand, a keyword is
a name.
-/

namespace GraphQL

inductive Keyword where
  | typeDefinition
  | interface
  | union
  | enum
  | input
  | scalar
  | schema
  | extend
  | implements
  | directive
  | repeatable
  | query
  | mutation
  | subscription
  | fragment
  | onCondition
  | trueValue
  | falseValue
  | nullValue
  deriving DecidableEq, Repr

namespace Keyword

def text : Keyword → String
  | typeDefinition => "type"
  | interface => "interface"
  | union => "union"
  | enum => "enum"
  | input => "input"
  | scalar => "scalar"
  | schema => "schema"
  | extend => "extend"
  | implements => "implements"
  | directive => "directive"
  | repeatable => "repeatable"
  | query => "query"
  | mutation => "mutation"
  | subscription => "subscription"
  | fragment => "fragment"
  | onCondition => "on"
  | trueValue => "true"
  | falseValue => "false"
  | nullValue => "null"

def all : List Keyword :=
  [typeDefinition, interface, union, enum, input, scalar, schema, extend, implements, directive,
    repeatable, query, mutation, subscription, fragment, onCondition, trueValue, falseValue,
    nullValue]

/-- The keyword that a word spells. -/
def ofText? (word : String) : Option Keyword :=
  all.find? (·.text == word)

end Keyword

inductive Punctuator where
  | openBrace
  | closeBrace
  | openParen
  | closeParen
  | openBracket
  | closeBracket
  | colon
  | spread
  | equals
  | pipe
  | ampersand
  | atSign
  | bang
  | dollar
  deriving DecidableEq, Repr

def Punctuator.text : Punctuator → String
  | openBrace => "\x7b"
  | closeBrace => "\x7d"
  | openParen => "("
  | closeParen => ")"
  | openBracket => "["
  | closeBracket => "]"
  | colon => ":"
  | spread => "..."
  | equals => "="
  | pipe => "|"
  | ampersand => "&"
  | atSign => "@"
  | bang => "!"
  | dollar => "$"

inductive TokenKind where
  | endOfInput
  | invalid
  | identifier
  | int
  | float
  | string
  | blockString
  | keyword (word : Keyword)
  | punctuator (mark : Punctuator)
  deriving DecidableEq, Repr

namespace TokenKind

/-- How messages call a kind of token. -/
def text : TokenKind → String
  | endOfInput => "<eof>"
  | invalid => "<error>"
  | identifier => "<ident>"
  | int => "<int>"
  | float => "<float>"
  | string => "<string>"
  | blockString => "<block-string>"
  | keyword word => word.text
  | punctuator mark => mark.text

/-- Whether the token can stand for a name. -/
def isName : TokenKind → Bool
  | identifier => true
  | keyword _ => true
  | _ => false

end TokenKind

/-- A token of a source text. Its text is missing if the span reaches past the end of the source. -/
structure Token where
  kind : TokenKind
  span : Span
  text? : Option String
  deriving DecidableEq, Repr

/-- The places where a directive may be used. -/
inductive DirectiveLocation where
  | schema
  | scalar
  | object
  | fieldDefinition
  | argumentDefinition
  | interface
  | union
  | enum
  | enumValue
  | inputObject
  | inputFieldDefinition
  | query
  | mutation
  | subscription
  | field
  | fragmentDefinition
  | fragmentSpread
  | inlineFragment
  | variableDefinition
  deriving DecidableEq, Repr

namespace DirectiveLocation

def text : DirectiveLocation → String
  | schema => "SCHEMA"
  | scalar => "SCALAR"
  | object => "OBJECT"
  | fieldDefinition => "FIELD_DEFINITION"
  | argumentDefinition => "ARGUMENT_DEFINITION"
  | interface => "INTERFACE"
  | union => "UNION"
  | enum => "ENUM"
  | enumValue => "ENUM_VALUE"
  | inputObject => "INPUT_OBJECT"
  | inputFieldDefinition => "INPUT_FIELD_DEFINITION"
  | query => "QUERY"
  | mutation => "MUTATION"
  | subscription => "SUBSCRIPTION"
  | field => "FIELD"
  | fragmentDefinition => "FRAGMENT_DEFINITION"
  | fragmentSpread => "FRAGMENT_SPREAD"
  | inlineFragment => "INLINE_FRAGMENT"
  | variableDefinition => "VARIABLE_DEFINITION"

def all : List DirectiveLocation :=
  [schema, scalar, object, fieldDefinition, argumentDefinition, interface, union, enum, enumValue,
    inputObject, inputFieldDefinition, query, mutation, subscription, field, fragmentDefinition,
    fragmentSpread, inlineFragment, variableDefinition]

/-- The place that a word names. -/
def ofText? (word : String) : Option DirectiveLocation :=
  all.find? (·.text == word)

end DirectiveLocation

end GraphQL

import GraphQL.Decimal
import GraphQL.Document.Literal
import GraphQL.Text.Quoted

/-!
# Texts of literals and type expressions

The compact form on one line, as messages show it and as arguments are compared by it.
-/

namespace GraphQL

def TypeExpression.print : TypeExpression → String
  | named name => name.text
  | list item _ => "[" ++ item.print ++ "]"
  | nonNull inner _ => inner.print ++ "!"

namespace Literal

/-- A floating-point literal: always positional and always with a point. Numbers that are not finite
have their names. -/
def floatText (x : Float) : String :=
  if x.isNaN then "NaN"
  else
    let size := if x.isFinite then (Decimal.ofFloat .up x).positional else "inf"
    if floatIsNegative x then "-" ++ size else size

mutual

def print : Literal → String
  | var name => "$" ++ name.text
  | int value _ => toString value
  | float value _ => floatText value
  | string value _ => Text.quote value
  | boolean value _ => if value then "true" else "false"
  | null _ => "null"
  | enum name => name.text
  | list items _ => "[" ++ ", ".intercalate (printItems items) ++ "]"
  | object fields _ => "\x7b" ++ ", ".intercalate (printFields fields) ++ "\x7d"

def printItems : List Literal → List String
  | [] => []
  | item :: rest => print item :: printItems rest

def printFields : List (Name × Literal) → List String
  | [] => []
  | (name, value) :: rest => (name.text ++ ": " ++ print value) :: printFields rest

end

end Literal

end GraphQL

import GraphQL.Json.Printer
import GraphQL.Text.Inspection

/-!
# Reading JSON values at a type

A value taken as an integer, a string or a truth value. When it is none, the error says what was
found and what was expected.
-/

namespace GraphQL
namespace Json

/-- A value that is not what was expected: of another type, or a value that the type does not have.
-/
inductive ConversionError where
  | wrongType (found : Json) (expected : String)
  | wrongValue (found : Json) (expected : String)

/-- What a value is, as an error says it: numbers, strings and truth values are shown. -/
def description : Json → String
  | null => "null"
  | bool value => "boolean \x60" ++ (if value then "true" else "false") ++ "\x60"
  | int value => s!"integer \x60{value}\x60"
  | float value => "floating point \x60" ++ floatText value ++ "\x60"
  | string value => "string " ++ Text.inspect value
  | array _ => "sequence"
  | object _ => "map"

def ConversionError.message : ConversionError → String
  | wrongType found expected => "invalid type: " ++ found.description ++ ", expected " ++ expected
  | wrongValue found expected => "invalid value: " ++ found.description ++ ", expected " ++ expected

/-- The value as an integer that fits in 64 bits with a sign. -/
def toInt64 : Json → Except ConversionError Int
  | int value =>
      if fitsInt64 value then .ok value else .error (.wrongValue (int value) "i64")
  | value => .error (.wrongType value "i64")

/-- The value as a size: an integer that is not negative. -/
def toSize : Json → Except ConversionError Nat
  | int value =>
      if 0 ≤ value then .ok value.toNat else .error (.wrongValue (int value) "usize")
  | value => .error (.wrongType value "usize")

def toText : Json → Except ConversionError String
  | string text => .ok text
  | value => .error (.wrongType value "a string")

def toBool : Json → Except ConversionError Bool
  | bool flag => .ok flag
  | value => .error (.wrongType value "a boolean")

end Json
end GraphQL

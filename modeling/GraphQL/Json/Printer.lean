import GraphQL.Decimal
import GraphQL.Json

/-!
# JSON texts

The compact text of a value, without any blank, and the indented text, two spaces a level. A string
escapes the quote, the backslash and the control characters below U+0020; everything else stands for
itself.
-/

namespace GraphQL
namespace Json

/-- The escape of a character inside a string, or the character itself. -/
def escapedChar (c : Char) : List Char :=
  if c = '"' then ['\\', '"']
  else if c = '\\' then ['\\', '\\']
  else if c = '\n' then ['\\', 'n']
  else if c = '\r' then ['\\', 'r']
  else if c = '\t' then ['\\', 't']
  else if c = '\x08' then ['\\', 'b']
  else if c = '\x0c' then ['\\', 'f']
  else if c.toNat < 0x20 then
    ['\\', 'u', '0', '0', Nat.digitChar (c.toNat / 16), Nat.digitChar (c.toNat % 16)]
  else [c]

def stringText (text : String) : String :=
  String.ofList ('"' :: text.toList.flatMap escapedChar ++ ['"'])

/-- A floating-point number: positional while the exponent of its first digit is at least -5 and at
most 15, else scientific. What is not finite has no number and is written as a missing value. -/
def floatText (x : Float) : String :=
  if x.isFinite then
    let decimal := Decimal.ofFloat .toEven x
    let size :=
      if -5 ≤ decimal.scale ∧ decimal.scale ≤ 15 then decimal.positional else decimal.scientific
    if floatIsNegative x then "-" ++ size else size
  else "null"

mutual

/-- The text without blanks. -/
def compact : Json → String
  | null => "null"
  | bool value => if value then "true" else "false"
  | int value => toString value
  | float value => floatText value
  | string value => stringText value
  | array items => "[" ++ ",".intercalate (compactItems items) ++ "]"
  | object fields => "\x7b" ++ ",".intercalate (compactFields fields) ++ "\x7d"

def compactItems : List Json → List String
  | [] => []
  | item :: rest => compact item :: compactItems rest

def compactFields : List (String × Json) → List String
  | [] => []
  | (name, value) :: rest => (stringText name ++ ":" ++ compact value) :: compactFields rest

end

/-- The start of a line at some depth of nesting. -/
def indentation (depth : Nat) : String :=
  "\n" ++ String.ofList (List.replicate (2 * depth) ' ')

/-- Puts items on lines of their own between two brackets; nothing stands between them when there
are no items. -/
def bracketed (opening closing : String) (depth : Nat) (items : List String) : String :=
  if items.isEmpty then opening ++ closing
  else
    opening ++ indentation (depth + 1) ++ ("," ++ indentation (depth + 1)).intercalate items
      ++ indentation depth ++ closing

mutual

/-- The text with every item and field on a line of its own. -/
def indented (depth : Nat) : Json → String
  | array items => bracketed "[" "]" depth (indentedItems depth items)
  | object fields => bracketed "\x7b" "\x7d" depth (indentedFields depth fields)
  | value => compact value

def indentedItems (depth : Nat) : List Json → List String
  | [] => []
  | item :: rest => indented (depth + 1) item :: indentedItems depth rest

def indentedFields (depth : Nat) : List (String × Json) → List String
  | [] => []
  | (name, value) :: rest =>
      (stringText name ++ ": " ++ indented (depth + 1) value) :: indentedFields depth rest

end

def pretty (value : Json) : String :=
  value.indented 0

end Json
end GraphQL

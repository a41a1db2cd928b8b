import GraphQL.OrderedMap

/-!
# JSON values

The values that requests bring in and responses carry out. Integers and floating-point numbers are
kept apart, and an object keeps the order of its fields.
-/

namespace GraphQL

/-- A JSON value. -/
inductive Json where
  | null
  | bool (value : Bool)
  | int (value : Int)
  | float (value : Float)
  | string (value : String)
  | array (items : List Json)
  | object (fields : List (String × Json))
  deriving Inhabited

namespace Json

def isNull : Json → Bool
  | null => true
  | _ => false

/-- An integer that fits in 64 bits with a sign. -/
def fitsInt64 (value : Int) : Bool :=
  -9223372036854775808 ≤ value && value < 9223372036854775808

/-- The value as a signed 64-bit integer. -/
def int64? : Json → Option Int
  | int value => if fitsInt64 value then some value else none
  | _ => none

/-- The value under a name, if the value is an object that has one. -/
def property? : Json → String → Option Json
  | object fields, name => OrderedMap.find? fields name
  | _, _ => none

mutual

/-- Equality of values: numbers by value within their kind, objects without regard to order. -/
def sameAs : Json → Json → Bool
  | null, null => true
  | bool left, bool right => left == right
  | int left, int right => left == right
  | float left, float right => left == right
  | string left, string right => left == right
  | array left, array right => sameItems left right
  | object left, object right => left.length == right.length && sameFields left right
  | _, _ => false

/-- Equality of arrays, item by item. -/
def sameItems : List Json → List Json → Bool
  | [], [] => true
  | left :: lefts, right :: rights => sameAs left right && sameItems lefts rights
  | _, _ => false

/-- Every field on the left has an equal one on the right. -/
def sameFields : List (String × Json) → List (String × Json) → Bool
  | [], _ => true
  | (name, value) :: rest, other =>
      (match OrderedMap.find? other name with
        | some found => sameAs value found
        | none => false) && sameFields rest other

end

instance : BEq Json := ⟨sameAs⟩

end Json

end GraphQL

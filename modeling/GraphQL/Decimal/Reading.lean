/-!
# Reading decimals

Two readers of a decimal number. `readNearest` gives the nearest binary number, however many digits
there are. `readScaled` takes the leading digits that fit in 64 bits as a binary number and
multiplies or divides it once by a power of ten, which is the nearest number for up to fifteen
digits and a small exponent and may miss it by a unit in the last place otherwise.
-/

namespace GraphQL
namespace Decimal

def digitValue (c : Char) : Nat :=
  c.toNat - '0'.toNat

/-- The number that a list of decimal digits spells, after the digits already read. -/
def digitsValue (start : Nat) (digits : List Char) : Nat :=
  digits.foldl (fun value digit => 10 * value + digitValue digit) start

def infinity : Float := 1.0 / 0.0

/-- The binary number nearest to `significand · 10 ^ exponent`. The size is looked at first, so an
exponent of many digits costs nothing. -/
def nearestFloat (significand : Nat) (exponent : Int) : Float :=
  let magnitude := exponent + ((Nat.toDigits 10 significand).length : Int)
  if significand = 0 then 0.0
  else if 310 < magnitude then infinity
  else if magnitude < -330 then 0.0
  else if exponent < 0 then Float.ofScientific significand true exponent.natAbs
  else Float.ofScientific significand false exponent.natAbs

/-- The parts of a decimal number as it is written: its sign, the digits before and after the point
and the exponent with its own sign. -/
structure Written where
  negative : Bool
  whole : List Char
  fraction : List Char
  exponentNegative : Bool
  exponent : List Char
  deriving DecidableEq

namespace Written

def exponentValue (number : Written) : Int :=
  let size := digitsValue 0 number.exponent
  if number.exponentNegative then -(size : Int) else size

/-- The nearest binary number; one beyond the largest finite number reads as infinity. -/
def toFloat (number : Written) : Float :=
  let size := nearestFloat (digitsValue 0 (number.whole ++ number.fraction))
    (number.exponentValue - number.fraction.length)
  if number.negative then -size else size

/-- Splits off an exponent. -/
def splitExponent : List Char → List Char × Bool × List Char
  | [] => ([], false, [])
  | c :: rest =>
      if c = 'e' ∨ c = 'E' then
        match rest with
        | '-' :: digits => ([], true, digits)
        | '+' :: digits => ([], false, digits)
        | digits => ([], false, digits)
      else
        let (before, negative, digits) := splitExponent rest
        (c :: before, negative, digits)

/-- Takes the parts of a well-formed decimal number. -/
def ofChars (text : List Char) : Written :=
  let (negative, unsigned) :=
    match text with
    | '-' :: rest => (true, rest)
    | rest => (false, rest)
  let (before, exponentNegative, exponent) := splitExponent unsigned
  { negative
    whole := before.takeWhile (· ≠ '.')
    fraction := (before.dropWhile (· ≠ '.')).drop 1
    exponentNegative
    exponent }

end Written

/-- The nearest binary number to a well-formed decimal number. -/
def readNearest (text : String) : Float :=
  (Written.ofChars text.toList).toFloat

/-- The exact power of ten, or the nearest binary number to it. -/
def powerOfTen (exponent : Nat) : Float :=
  nearestFloat 1 exponent

/-- Scales a 64-bit number by a power of ten in steps of at most `10 ^ 308`. Gives nothing if the
result is beyond the largest finite number. -/
def scaledFloat? (significand : Nat) (exponent : Int) : Option Float :=
  let start := significand.toUInt64.toFloat
  if 0 ≤ exponent then
    if exponent ≤ 308 then
      let scaled := start * powerOfTen exponent.natAbs
      if scaled.isInf then none else some scaled
    else if significand = 0 then some start
    else none
  else
    let steps := (exponent.natAbs - 1) / 308
    if steps = 0 then some (start / powerOfTen exponent.natAbs)
    else if 4 < steps then some 0.0
    else
      let lowered := (List.range steps).foldl (fun value _ => value / powerOfTen 308) start
      some (lowered / powerOfTen (exponent.natAbs - 308 * steps))

end Decimal
end GraphQL

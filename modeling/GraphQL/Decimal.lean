/-!
# Decimal texts of binary numbers

A binary floating-point number is written with the fewest digits that read back as the same number.
Every real number between the two midpoints to its neighbours reads back as it (the midpoints too if
its mantissa is even), so for one digit, two digits and so on the two decimals nearest to it are
compared with that interval. The first number of digits with a decimal inside wins, and of two
decimals inside, the nearer one. Two decimals can be equally near; the format that asks for the text
says which one it takes.

All arithmetic is on natural numbers: a binary number is a fraction of two of them.
-/

namespace GraphQL

/-- The number `significand · 10 ^ exponent`. -/
structure Decimal where
  significand : Nat
  exponent : Int
  deriving DecidableEq, Repr

/-- A non-negative binary number `mantissa · 2 ^ exponent`. At a power of two the neighbour below is
only half as far away as the one above. -/
structure Binary where
  mantissa : Nat
  exponent : Int
  nearerBelow : Bool
  deriving DecidableEq, Repr

/-- Which of two equally near decimals is taken: the larger one, or the one with an even last digit.
-/
inductive Tie where
  | up
  | toEven
  deriving DecidableEq, Repr

namespace Binary

/-- The absolute value of a finite number, read off its bits. -/
def ofFloat (x : Float) : Binary :=
  let bits : Nat := x.toBits.toNat
  let biased : Nat := bits / Nat.pow 2 52 % Nat.pow 2 11
  let fraction := bits % Nat.pow 2 52
  if biased = 0 then ⟨fraction, -1074, false⟩
  else ⟨fraction + Nat.pow 2 52, (biased : Int) - 1075, fraction == 0 && biased > 1⟩

/-- The power of two that the fractions below are multiples of: a quarter of the last place. -/
def quarterPlace (number : Binary) : Nat × Nat :=
  let exponent := number.exponent - 2
  if exponent < 0 then (1, Nat.pow 2 exponent.natAbs) else (Nat.pow 2 exponent.natAbs, 1)

def numerator (number : Binary) : Nat :=
  4 * number.mantissa * number.quarterPlace.1

def denominator (number : Binary) : Nat :=
  number.quarterPlace.2

/-- The numerator of the midpoint to the neighbour below. -/
def lowerNumerator (number : Binary) : Nat :=
  (4 * number.mantissa - if number.nearerBelow then 1 else 2) * number.quarterPlace.1

/-- The numerator of the midpoint to the neighbour above. -/
def upperNumerator (number : Binary) : Nat :=
  (4 * number.mantissa + 2) * number.quarterPlace.1

/-- The power of ten just above the number: it has that many digits before the point, or fewer than
none if zeros follow the point. -/
def magnitude (number : Binary) : Int :=
  if number.denominator ≤ number.numerator then
    (Nat.toDigits 10 (number.numerator / number.denominator)).length
  else
    1 - ((Nat.toDigits 10 ((number.denominator - 1) / number.numerator)).length : Int)

/-- The fraction `count · 10 ^ grid`. -/
def gridFraction (count : Nat) (grid : Int) : Nat × Nat :=
  if grid < 0 then (count, Nat.pow 10 grid.natAbs) else (count * Nat.pow 10 grid.natAbs, 1)

/-- Whether a decimal reads back as the number. -/
def readsBack (number : Binary) (count : Nat) (grid : Int) : Bool :=
  let decimal := gridFraction count grid
  let low := number.lowerNumerator * decimal.2
  let high := number.upperNumerator * decimal.2
  let middle := decimal.1 * number.denominator
  if number.mantissa % 2 = 0 then low ≤ middle && middle ≤ high else low < middle && middle < high

/-- The multiples of a power of ten next to the number: the largest one that does not exceed it. -/
def floorOnGrid (number : Binary) (grid : Int) : Nat :=
  if grid < 0 then number.numerator * Nat.pow 10 grid.natAbs / number.denominator
  else number.numerator / (number.denominator * Nat.pow 10 grid.natAbs)

/-- Whether `count` is taken and not `count + 1` on a grid: it is nearer, or as near and the tie
goes to it. -/
def takesFloor (number : Binary) (tie : Tie) (count : Nat) (grid : Int) : Bool :=
  let middle := gridFraction (2 * count + 1) grid
  let doubled := 2 * number.numerator * middle.2
  let between := middle.1 * number.denominator
  doubled < between || (doubled == between && tie == .toEven && count % 2 == 0)

/-- A decimal on a grid; rounding up to a power of ten leaves a single digit. -/
def onGrid (count digits : Nat) (grid : Int) : Decimal :=
  if count = Nat.pow 10 digits then ⟨1, grid + digits⟩ else ⟨count, grid⟩

/-- The nearest decimal with so many digits that reads back, if there is one. -/
def withDigits? (number : Binary) (tie : Tie) (digits : Nat) : Option Decimal :=
  let grid := number.magnitude - digits
  let below := number.floorOnGrid grid
  match number.readsBack below grid, number.readsBack (below + 1) grid with
  | true, true =>
      some (onGrid (if number.takesFloor tie below grid then below else below + 1) digits grid)
  | true, false => some (onGrid below digits grid)
  | false, true => some (onGrid (below + 1) digits grid)
  | false, false => none

/-- The decimal of fewest digits that reads back as the number; seventeen digits always suffice. -/
def shortest (number : Binary) (tie : Tie) : Decimal :=
  if number.mantissa = 0 then ⟨0, 0⟩
  else
    ((List.range 17).findSome? fun index => number.withDigits? tie (index + 1)).getD
      ⟨number.floorOnGrid (number.magnitude - 17), number.magnitude - 17⟩

end Binary

namespace Decimal

/-- The shortest decimal of the absolute value of a finite number. -/
def ofFloat (tie : Tie) (x : Float) : Decimal :=
  (Binary.ofFloat x).shortest tie

def digits (number : Decimal) : List Char :=
  Nat.toDigits 10 number.significand

/-- The exponent of the first digit: the number is `d.ddd · 10 ^ scale`. -/
def scale (number : Decimal) : Int :=
  number.exponent + (number.digits.length : Int) - 1

/-- The digits with the point at its place and at least one digit on each side of it. -/
def positional (number : Decimal) : String :=
  let digits := number.digits
  let point := number.scale + 1
  if 0 ≤ number.exponent then
    String.ofList (digits ++ List.replicate number.exponent.natAbs '0' ++ ['.', '0'])
  else if point ≤ 0 then
    String.ofList (['0', '.'] ++ List.replicate point.natAbs '0' ++ digits)
  else
    String.ofList (digits.take point.natAbs ++ ['.'] ++ digits.drop point.natAbs)

/-- One digit before the point, the others after it, and the exponent with its sign. -/
def scientific (number : Decimal) : String :=
  let fraction := number.digits.drop 1
  let point := if fraction.isEmpty then [] else '.' :: fraction
  let sign := if number.scale < 0 then '-' else '+'
  String.ofList
    (number.digits.take 1 ++ point ++ ['e', sign] ++ Nat.toDigits 10 number.scale.natAbs)

end Decimal

/-- The sign bit is set, also for a negative zero. -/
def floatIsNegative (x : Float) : Bool :=
  x.toBits.toNat / Nat.pow 2 63 == 1

end GraphQL

import GraphQL.Decimal.Reading
import GraphQL.Json

/-!
# Reading JSON

A reader of JSON texts that says what is wrong and where. A reader is a function of a cursor;
nesting is bounded by a depth, on which the reader of values recurses, and every loop is bounded by
the number of characters left.

The place of an error is a byte offset. Where a character that does not fit has only been looked at,
the offset is the one just after its first byte.
-/

namespace GraphQL
namespace Json

/-- What can be wrong with a JSON text. -/
inductive ReadCause where
  | endInList
  | endInObject
  | endInString
  | endInValue
  | expectedColon
  | expectedListSeparator
  | expectedObjectSeparator
  | expectedIdentifier
  | expectedValue
  | invalidEscape
  | invalidNumber
  | numberOutOfRange
  | controlCharacter
  | keyNotString
  | loneSurrogate
  | trailingComma
  | trailingCharacters
  | unexpectedEndOfEscape
  | tooDeep
  | unexpected (description : String)
  deriving DecidableEq, Repr

def ReadCause.message : ReadCause → String
  | endInList => "EOF while parsing a list"
  | endInObject => "EOF while parsing an object"
  | endInString => "EOF while parsing a string"
  | endInValue => "EOF while parsing a value"
  | expectedColon => "expected \x60:\x60"
  | expectedListSeparator => "expected \x60,\x60 or \x60]\x60"
  | expectedObjectSeparator => "expected \x60,\x60 or \x60\x7d\x60"
  | expectedIdentifier => "expected ident"
  | expectedValue => "expected value"
  | invalidEscape => "invalid escape"
  | invalidNumber => "invalid number"
  | numberOutOfRange => "number out of range"
  | controlCharacter => "control character (\\u0000-\\u001F) found while parsing a string"
  | keyNotString => "key must be a string"
  | loneSurrogate => "lone leading surrogate in hex escape"
  | trailingComma => "trailing comma"
  | trailingCharacters => "trailing characters"
  | unexpectedEndOfEscape => "unexpected end of hex escape"
  | tooDeep => "recursion limit exceeded"
  | unexpected description => description

/-- A cause and the byte offset at which it was noticed. -/
structure ReadError where
  cause : ReadCause
  offset : Nat
  deriving DecidableEq, Repr

/-- The line and column of a byte offset: the lines begun so far and the bytes since the last one.
-/
def lineAndColumn : List Char → Nat → Nat × Nat
  | text, offset => go text offset 1 0
where
  go : List Char → Nat → Nat → Nat → Nat × Nat
    | [], _, line, column => (line, column)
    | c :: rest, left, line, column =>
        if left = 0 then (line, column)
        else if c = '\n' then go rest (left - 1) (line + 1) 0
        else go rest (left - c.utf8Size) line (column + min left c.utf8Size)

/-- The message of an error in a text, with its place. -/
def ReadError.message (error : ReadError) (text : String) : String :=
  let (line, column) := lineAndColumn text.toList error.offset
  s!"{error.cause.message} at line {line} column {column}"

/-- The characters not yet read and the offset of the first of them. -/
structure Cursor where
  offset : Nat
  rest : List Char

abbrev Reader := StateT Cursor (Except ReadError)

namespace Reader

/-- Stops at the current offset. -/
def fail {α : Type} (cause : ReadCause) : Reader α := fun cursor =>
  .error ⟨cause, cursor.offset⟩

/-- Stops at the character ahead. -/
def failAhead {α : Type} (cause : ReadCause) : Reader α := fun cursor =>
  .error ⟨cause, if cursor.rest.isEmpty then cursor.offset else cursor.offset + 1⟩

def peek? : Reader (Option Char) := fun cursor => .ok (cursor.rest.head?, cursor)

def skipChar : Reader Unit := fun cursor =>
  match cursor.rest with
  | [] => .ok ((), cursor)
  | c :: rest => .ok ((), ⟨cursor.offset + c.utf8Size, rest⟩)

def isBlank (c : Char) : Bool :=
  c == ' ' || c == '\n' || c == '\t' || c == '\r'

/-- Skips blanks and looks at the next character. -/
def peekToken? : Reader (Option Char) := fun cursor =>
  let blanks := cursor.rest.takeWhile isBlank
  let rest := cursor.rest.dropWhile isBlank
  .ok (rest.head?, ⟨cursor.offset + blanks.length, rest⟩)

/-- Reads the rest of a fixed word. -/
def word : List Char → Reader Unit
  | [] => pure ()
  | expected :: others => do
      match ← peek? with
      | none => fail .endInValue
      | some c =>
          if c = expected then
            skipChar
            word others
          else failAhead .expectedIdentifier

/-- Takes the digits ahead. -/
def digits : Reader (List Char) := fun cursor =>
  let taken := cursor.rest.takeWhile Char.isDigit
  .ok (taken, ⟨cursor.offset + taken.length, cursor.rest.dropWhile Char.isDigit⟩)

/-- The largest number that the leading digits may spell. -/
def largestSignificand : Nat := Nat.pow 2 64 - 1

/-- The leading digits that fit in 64 bits, and the digits after them. -/
def significand (start : Nat) : List Char → Nat × List Char
  | [] => (start, [])
  | digit :: rest =>
      let extended := 10 * start + Decimal.digitValue digit
      if largestSignificand < extended then (start, digit :: rest) else significand extended rest

def signed (negative : Bool) (size : Float) : Json :=
  .float (if negative then -size else size)

def scaled (negative : Bool) (significand : Nat) (exponent : Int) : Reader Json :=
  match Decimal.scaledFloat? significand exponent with
  | some size => pure (signed negative size)
  | none => fail .numberOutOfRange

/-- The digits of an exponent up to the first that takes it beyond 32 bits. -/
def exponentDigits (start : Nat) : List Char → Nat × Option (List Char)
  | [] => (start, none)
  | digit :: rest =>
      let extended := 10 * start + Decimal.digitValue digit
      if Nat.pow 2 31 - 1 < extended then (start, some rest) else exponentDigits extended rest

/-- Reads an exponent after its mark and scales the digits before it. -/
def exponent (negative : Bool) (significand : Nat) (shift : Int) : Reader Json := do
  skipChar
  let mark ← peek?
  let lowered := mark == some '-'
  if lowered || mark == some '+' then skipChar
  match ← peek? with
  | none => fail .endInValue
  | some c =>
      if !c.isDigit then failAhead .invalidNumber
      else
        let before ← get
        let taken ← digits
        match exponentDigits 0 taken with
        | (size, none) =>
            scaled negative significand (shift + (if lowered then -(size : Int) else size))
        | (_, some excess) =>
            if significand ≠ 0 && !lowered then
              throw ⟨.numberOutOfRange, before.offset + (taken.length - excess.length)⟩
            else pure (signed negative 0.0)

/-- Reads what may follow the digits before the point, or after it: an exponent. -/
def optionalExponent (negative : Bool) (significand : Nat) (shift : Int) : Reader Json := do
  let mark ← peek?
  if mark == some 'e' || mark == some 'E' then exponent negative significand shift
  else scaled negative significand shift

/-- Reads the digits after the point. Digits that no longer fit are dropped. -/
def fraction (negative : Bool) (leading : Nat) (shift : Int) : Reader Json := do
  skipChar
  let taken ← digits
  if taken.isEmpty then
    match ← peek? with
    | some _ => failAhead .invalidNumber
    | none => fail .endInValue
  else
    let (value, dropped) := significand leading taken
    optionalExponent negative value (shift - ((taken.length - dropped.length : Nat) : Int))

/-- Reads a number without its sign. -/
def number (negative : Bool) : Reader Json := do
  match ← peek? with
  | none => fail .endInValue
  | some first =>
      if !first.isDigit then failAhead .invalidNumber
      else
        if first = '0' then
          skipChar
          if (← peek?).any Char.isDigit then failAhead .invalidNumber
        let taken ← digits
        let (value, excess) := significand 0 taken
        let mark ← peek?
        if mark == some '.' then fraction negative value excess.length
        else if mark == some 'e' || mark == some 'E' then exponent negative value excess.length
        else if !excess.isEmpty then scaled negative value excess.length
        else if !negative then pure (.int value)
        else if value = 0 || Nat.pow 2 63 < value then pure (.float (-(value.toUInt64.toFloat)))
        else pure (.int (-(value : Int)))

def hexValue? (c : Char) : Option Nat :=
  if c.isDigit then some (c.toNat - '0'.toNat)
  else if 'a' ≤ c && c ≤ 'f' then some (c.toNat - 'a'.toNat + 10)
  else if 'A' ≤ c && c ≤ 'F' then some (c.toNat - 'A'.toNat + 10)
  else none

/-- Reads four hexadecimal digits. -/
def hexFour : Reader Nat := fun cursor =>
  let size := cursor.rest.foldl (fun total c => total + c.utf8Size) 0
  if size < 4 then .error ⟨.endInString, cursor.offset + size⟩
  else
    match cursor.rest with
    | a :: b :: c :: d :: rest =>
        match hexValue? a, hexValue? b, hexValue? c, hexValue? d with
        | some a, some b, some c, some d =>
            .ok (((a * 16 + b) * 16 + c) * 16 + d, ⟨cursor.offset + 4, rest⟩)
        | _, _, _, _ => .error ⟨.invalidEscape, cursor.offset + 4⟩
    | _ => .error ⟨.invalidEscape, cursor.offset + 4⟩

def expectInEscape (expected : Char) : Reader Unit := do
  match ← peek? with
  | none => fail .endInString
  | some c => if c = expected then skipChar else failAhead .unexpectedEndOfEscape

/-- Reads a code point after the letter of its escape; a high surrogate needs a low one after it. -/
def codePoint : Reader Char := do
  let first ← hexFour
  if 0xDC00 ≤ first && first ≤ 0xDFFF then fail .loneSurrogate
  else if 0xD800 ≤ first && first ≤ 0xDBFF then
    expectInEscape '\\'
    expectInEscape 'u'
    let second ← hexFour
    if second < 0xDC00 || 0xDFFF < second then fail .loneSurrogate
    else pure (Char.ofNat ((first - 0xD800) * 0x400 + (second - 0xDC00) + 0x10000))
  else pure (Char.ofNat first)

/-- Reads an escape after its backslash. -/
def escaped : Reader Char := do
  match ← peek? with
  | none => fail .endInString
  | some '"' => skipChar; pure '"'
  | some '\\' => skipChar; pure '\\'
  | some '/' => skipChar; pure '/'
  | some 'b' => skipChar; pure '\x08'
  | some 'f' => skipChar; pure '\x0c'
  | some 'n' => skipChar; pure '\n'
  | some 'r' => skipChar; pure '\r'
  | some 't' => skipChar; pure '\t'
  | some 'u' => skipChar; codePoint
  | some _ => failAhead .invalidEscape

/-- Reads a string up to its closing quote; `read` holds the characters so far, the last one first.
-/
def stringRest : Nat → List Char → Reader String
  | 0, _ => fail .endInString
  | fuel + 1, read => do
      match ← peek? with
      | none => fail .endInString
      | some c =>
          if c = '"' then
            skipChar
            pure (String.ofList read.reverse)
          else if c = '\\' then
            skipChar
            stringRest fuel ((← escaped) :: read)
          else if c.toNat < 0x20 then failAhead .controlCharacter
          else
            skipChar
            stringRest fuel (c :: read)

/-- Reads a string at its opening quote. -/
def string : Reader String := do
  skipChar
  stringRest ((← get).rest.length + 1) []

/-- Reads the items of a list after its bracket; `first` tells whether none has been read yet. -/
def items {α : Type} (item : Reader α) : Nat → Bool → Reader (List α)
  | 0, _ => fail .endInList
  | fuel + 1, first => do
      match ← peekToken? with
      | none => fail .endInList
      | some ']' => skipChar; pure []
      | some c =>
          if first then
            return (← item) :: (← items item fuel false)
          else if c = ',' then
            skipChar
            match ← peekToken? with
            | none => fail .endInValue
            | some ']' => failAhead .trailingComma
            | some _ => return (← item) :: (← items item fuel false)
          else failAhead .expectedListSeparator

/-- Reads the colon after a key. -/
def colon : Reader Unit := do
  match ← peekToken? with
  | none => fail .endInObject
  | some ':' => skipChar
  | some _ => failAhead .expectedColon

/-- Reads the fields of an object after its brace, each with a reader chosen by its key. -/
def fields {σ : Type} (field : String → σ → Reader σ) : Nat → Bool → σ → Reader σ
  | 0, _, _ => fail .endInObject
  | fuel + 1, first, state => do
      match ← peekToken? with
      | none => fail .endInObject
      | some '\x7d' => skipChar; pure state
      | some c =>
          if first then
            if c = '"' then
              let key ← string
              fields field fuel false (← field key state)
            else failAhead .keyNotString
          else if c = ',' then
            skipChar
            match ← peekToken? with
            | none => fail .endInValue
            | some '"' =>
                let key ← string
                fields field fuel false (← field key state)
            | some '\x7d' => failAhead .trailingComma
            | some _ => failAhead .keyNotString
          else failAhead .expectedObjectSeparator

/-- Reads a value nested at most so deep. -/
def value : Nat → Reader Json
  | 0 => failAhead .tooDeep
  | depth + 1 => do
      match ← peekToken? with
      | none => fail .endInValue
      | some 'n' => skipChar; word "ull".toList; pure .null
      | some 't' => skipChar; word "rue".toList; pure (.bool true)
      | some 'f' => skipChar; word "alse".toList; pure (.bool false)
      | some '-' => skipChar; number true
      | some '"' => return .string (← string)
      | some '[' =>
          if depth = 0 then failAhead .tooDeep
          skipChar
          return .array (← items (value depth) ((← get).rest.length + 1) true)
      | some '\x7b' =>
          if depth = 0 then failAhead .tooDeep
          skipChar
          let entries ← fields
            (fun key entries => do
              colon
              return OrderedMap.insert entries key (← value depth))
            ((← get).rest.length + 1) true []
          return .object entries
      | some c => if c.isDigit then number false else failAhead .expectedValue

/-- How deep a text may nest. -/
def depthLimit : Nat := 128

/-- Nothing but blanks may follow. -/
def endOfText : Reader Unit := do
  match ← peekToken? with
  | none => pure ()
  | some _ => failAhead .trailingCharacters

/-- Runs a reader on a whole text. -/
def run {α : Type} (reader : Reader α) (text : String) : Except ReadError α :=
  let whole : Reader α := do
    let result ← reader
    endOfText
    pure result
  (whole ⟨0, text.toList⟩).map Prod.fst

end Reader

/-- Reads a JSON text. -/
def parse (text : String) : Except ReadError Json :=
  Reader.run (Reader.value Reader.depthLimit) text

end Json
end GraphQL

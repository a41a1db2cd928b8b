import GraphQL.Json.Conversion
import GraphQL.Json.Reader

/-!
# Reading records

JSON texts read straight into a structure. A record is an object with known fields, each at most
once; unknown fields are skipped, missing ones keep what they had at the start. It may also be a
list of its fields in order, from which the last ones may be missing.

What is skipped only has to look like a value: numbers may be out of range, and nesting has no
limit.
-/

namespace GraphQL
namespace Json
namespace Reader

/-- Skips what follows a backslash. -/
def skipEscape : Reader Unit := do
  match ← peek? with
  | none => fail .endInString
  | some 'u' =>
      skipChar
      let _ ← hexFour
  | some c =>
      if ['"', '\\', '/', 'b', 'f', 'n', 'r', 't'].contains c then skipChar
      else failAhead .invalidEscape

/-- Skips a string after its opening quote. -/
def skipString : Nat → Reader Unit
  | 0 => fail .endInString
  | fuel + 1 => do
      match ← peek? with
      | none => fail .endInString
      | some c =>
          if c = '"' then skipChar
          else if c = '\\' then
            skipChar
            skipEscape
            skipString fuel
          else if c.toNat < 0x20 then fail .controlCharacter
          else
            skipChar
            skipString fuel

/-- Skips an exponent after its mark. -/
def skipExponent : Reader Unit := do
  skipChar
  let sign ← peek?
  if sign == some '+' || sign == some '-' then skipChar
  if (← digits).isEmpty then failAhead .invalidNumber

def skipOptionalExponent : Reader Unit := do
  let mark ← peek?
  if mark == some 'e' || mark == some 'E' then skipExponent

/-- Skips a number without its sign. -/
def skipNumber : Reader Unit := do
  match ← peek? with
  | some '0' =>
      skipChar
      if (← peek?).any Char.isDigit then failAhead .invalidNumber
  | _ => if (← digits).isEmpty then failAhead .invalidNumber
  if (← peek?) == some '.' then
    skipChar
    if (← digits).isEmpty then failAhead .invalidNumber
  skipOptionalExponent

mutual

/-- Skips a value. -/
def skipValue : Nat → Reader Unit
  | 0 => fail .endInValue
  | fuel + 1 => do
      match ← peekToken? with
      | none => fail .endInValue
      | some 'n' => skipChar; word "ull".toList
      | some 't' => skipChar; word "rue".toList
      | some 'f' => skipChar; word "alse".toList
      | some '-' => skipChar; skipNumber
      | some '"' =>
          skipChar
          skipString ((← get).rest.length + 1)
      | some '[' => skipChar; skipItems fuel true
      | some '\x7b' => skipChar; skipFields fuel true
      | some c => if c.isDigit then skipNumber else failAhead .expectedValue

/-- Skips the items of a list after its bracket; `first` tells whether none has been skipped yet. -/
def skipItems : Nat → Bool → Reader Unit
  | 0, _ => fail .endInList
  | fuel + 1, first => do
      match ← peekToken? with
      | none => fail .endInList
      | some ']' => skipChar
      | some c =>
          if !first then
            if c ≠ ',' then failAhead .expectedListSeparator
            skipChar
          skipValue fuel
          skipItems fuel false

/-- Skips the fields of an object after its brace. -/
def skipFields : Nat → Bool → Reader Unit
  | 0, _ => fail .endInObject
  | fuel + 1, first => do
      match ← peekToken? with
      | none => fail .endInObject
      | some '\x7d' => skipChar
      | some c =>
          if !first then
            if c ≠ ',' then failAhead .expectedObjectSeparator
            skipChar
          match ← peekToken? with
          | none => fail .endInObject
          | some '"' =>
              skipChar
              skipString ((← get).rest.length + 1)
              colon
              skipValue fuel
              skipFields fuel false
          | some _ => failAhead .keyNotString

end

/-- Skips whatever value comes next. -/
def skip : Reader Unit := do
  skipValue (2 * (← get).rest.length + 2)

/-- Stops at a value of another type than expected. A list or an object is not read for that. -/
def unexpectedAhead {α : Type} (expected : String) : Reader α := do
  let found ←
    match ← peekToken? with
    | some '[' => pure (.array [])
    | some '\x7b' => pure (.object [])
    | _ => value 1
  fail (.unexpected (ConversionError.wrongType found expected).message)

/-- Reads a size. -/
def size : Reader Nat := do
  let read (negative : Bool) : Reader Nat := do
    match (← number negative).toSize with
    | .ok size => return size
    | .error error => fail (.unexpected error.message)
  match ← peekToken? with
  | none => fail .endInValue
  | some '-' =>
      skipChar
      read true
  | some c => if c.isDigit then read false else unexpectedAhead "usize"

/-- Reads a size, or null for none. -/
def size? : Reader (Option Nat) := do
  if (← peekToken?) == some 'n' then
    skipChar
    word "ull".toList
    return none
  else return some (← size)

/-- A field of a record: its name and how its value is read into the record. -/
abbrev Member (σ : Type) := String × (σ → Reader σ)

/-- A field that was read before. The rest of the record up to its end is looked at first. -/
def repeated {α : Type} (name : String) : Reader α := do
  if (← peekToken?) == some '\x7d' then skipChar
  fail (.unexpected ("duplicate field \x60" ++ name ++ "\x60"))

/-- Reads a field of a record after its key. The state holds the names of the fields read so far. -/
def member {σ : Type} (members : List (Member σ)) (key : String) (state : List String × σ) :
    Reader (List String × σ) := do
  match members.lookup key with
  | none =>
      colon
      skip
      return state
  | some read =>
      if state.1.contains key then repeated key
      else
        colon
        return (key :: state.1, ← read state.2)

/-- Reads the fields of a record that is a list, up to the end of the list or of the fields. -/
def memberItems {σ : Type} : List (Member σ) → Bool → σ → Reader σ
  | [], _, state => return state
  | (_, read) :: rest, first, state => do
      match ← peekToken? with
      | none => fail .endInList
      | some ']' => return state
      | some c =>
          if !first then
            if c ≠ ',' then failAhead .expectedListSeparator
            skipChar
            match ← peekToken? with
            | none => fail .endInValue
            | some ']' => failAhead .trailingComma
            | some _ => pure ()
          memberItems rest false (← read state)

/-- Reads the end of a list from which nothing more is wanted. -/
def endOfList : Reader Unit := do
  match ← peekToken? with
  | none => fail .endInList
  | some ']' => skipChar
  | some ',' =>
      skipChar
      if (← peekToken?) == some ']' then failAhead .trailingComma else failAhead .trailingCharacters
  | some _ => failAhead .trailingCharacters

/-- Reads a record. -/
def record {σ : Type} (expected : String) (members : List (Member σ)) (start : σ) : Reader σ := do
  match ← peekToken? with
  | none => fail .endInValue
  | some '[' =>
      skipChar
      let state ← memberItems members true start
      endOfList
      return state
  | some '\x7b' =>
      skipChar
      return (← fields (member members) ((← get).rest.length + 1) true ([], start)).2
  | some _ => unexpectedAhead expected

end Reader
end Json
end GraphQL

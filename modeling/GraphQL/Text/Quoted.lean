/-!
# Quoted strings

The text of a string between double quotes. Writing escapes the quote, the backslash and the control
characters; reading resolves every escape, and takes a character after a backslash for itself if it
names no escape.
-/

namespace GraphQL
namespace Text

/-- The Unicode category Cc: the two blocks of control codes. -/
def isControl (c : Char) : Bool :=
  c.toNat < 0x20 || (0x7f ≤ c.toNat && c.toNat < 0xa0)

/-- A hexadecimal digit in upper case. -/
def upperHexDigit (value : Nat) : Char :=
  (Nat.digitChar value).toUpper

/-- A code point below 65536 in four hexadecimal digits. -/
def fourHexDigits (code : Nat) : List Char :=
  [upperHexDigit (code / 4096), upperHexDigit (code / 256 % 16), upperHexDigit (code / 16 % 16),
    upperHexDigit (code % 16)]

/-- What is written for a character. -/
def escape (c : Char) : List Char :=
  if c = '"' then ['\\', '"']
  else if c = '\\' then ['\\', '\\']
  else if c = '\n' then ['\\', 'n']
  else if c = '\r' then ['\\', 'r']
  else if c = '\t' then ['\\', 't']
  else if isControl c then '\\' :: 'u' :: fourHexDigits c.toNat
  else [c]

/-- The quoted form of a string. -/
def quote (text : String) : String :=
  String.ofList ('"' :: text.toList.flatMap escape ++ ['"'])

def hexDigit? (c : Char) : Option Nat :=
  if '0' ≤ c ∧ c ≤ '9' then some (c.toNat - '0'.toNat)
  else if 'a' ≤ c ∧ c ≤ 'f' then some (c.toNat - 'a'.toNat + 10)
  else if 'A' ≤ c ∧ c ≤ 'F' then some (c.toNat - 'A'.toNat + 10)
  else none

/-- The number that hexadecimal digits spell, after those already read. -/
def hexDigits? : Nat → List Char → Option Nat
  | value, [] => some value
  | value, c :: rest =>
      match hexDigit? c with
      | some digit => hexDigits? (16 * value + digit) rest
      | none => none

/-- A hexadecimal number: at least one digit, after an optional plus sign. -/
def hexNumber? : List Char → Option Nat
  | [] => none
  | ['+'] => none
  | '+' :: digits => hexDigits? 0 digits
  | digits => hexDigits? 0 digits

/-- The character with a code point; surrogates have none. -/
def codePoint? (code : Nat) : Option Char :=
  if code.isValidChar then some (Char.ofNat code) else none

/-- What an escape by code point stands for: the character, or the escape as it is written. -/
def resolveCodePoint (digits : List Char) : List Char :=
  match (hexNumber? digits).bind codePoint? with
  | some c => [c]
  | none => '\\' :: 'u' :: digits

/-- The character that a letter after a backslash stands for. -/
def resolveLetter (c : Char) : Char :=
  if c = 'n' then '\n'
  else if c = 't' then '\t'
  else if c = 'r' then '\r'
  else if c = 'b' then '\x08'
  else if c = 'f' then '\x0c'
  else c

/-- Resolves the escapes between two quotes. An escape by code point takes the next four characters,
or what is left of them. -/
def unescape : List Char → List Char
  | [] => []
  | ['\\'] => ['\\']
  | '\\' :: 'u' :: a :: b :: c :: d :: rest => resolveCodePoint [a, b, c, d] ++ unescape rest
  | '\\' :: 'u' :: digits => resolveCodePoint digits
  | '\\' :: c :: rest => resolveLetter c :: unescape rest
  | c :: rest => c :: unescape rest

end Text
end GraphQL

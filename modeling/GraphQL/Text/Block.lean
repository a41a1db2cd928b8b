import GraphQL.Source
import GraphQL.Text.WhiteSpace

/-!
# Block strings

The value of a block string: its lines without their common indentation and without blank lines at
the start and at the end. The indentation is counted in bytes over the lines after the first one
that are not blank. A blank line may hold white space of several bytes; cutting it inside a
character is a fault.
-/

namespace GraphQL
namespace Text

/-- Resolves the escaped triple quotes. -/
def unescapeBlock : List Char → List Char
  | [] => []
  | '\\' :: '"' :: '"' :: '"' :: rest => '"' :: '"' :: '"' :: unescapeBlock rest
  | c :: rest => c :: unescapeBlock rest

/-- A line without the carriage return before its line feed. -/
def withoutReturn (line : List Char) : List Char :=
  if line.getLast? = some '\r' then line.dropLast else line

/-- The lines of a text; `line` holds the current one so far. Nothing follows a final line feed. -/
def splitLines (line : List Char) : List Char → List (List Char)
  | [] => if line.isEmpty then [] else [line]
  | c :: rest =>
      if c = '\n' then withoutReturn line :: splitLines [] rest else splitLines (line ++ [c]) rest

def lines (text : List Char) : List (List Char) :=
  splitLines [] text

/-- The spaces and tabs at the start of a line. -/
def indentation (line : List Char) : Nat :=
  (line.takeWhile fun c => c == ' ' || c == '\t').length

/-- The least indentation of the lines that are not blank. -/
def commonIndentation (lines : List (List Char)) : Nat :=
  (((lines.filter fun line => !isBlank line).map indentation).min?).getD 0

/-- Cuts bytes off the front of a line. -/
def dropBytes : Nat → List Char → Except SliceFault (List Char)
  | 0, line => .ok line
  | _ + 1, [] => .error .pastEnd
  | count + 1, c :: rest =>
      if c.utf8Size ≤ count + 1 then dropBytes (count + 1 - c.utf8Size) rest
      else .error .insideCharacter

def byteLength (line : List Char) : Nat :=
  line.foldl (fun size c => size + c.utf8Size) 0

/-- Removes an indentation from a line; a line shorter than it loses its leading white space. -/
def unindent (count : Nat) (line : List Char) : Except SliceFault (List Char) :=
  if byteLength line < count then .ok (trimStart line) else dropBytes count line

/-- The lines without the blank ones at both ends. -/
def trimBlankLines (lines : List (List Char)) : List (List Char) :=
  (((lines.dropWhile isBlank).reverse).dropWhile isBlank).reverse

/-- The lines of a block string, the first one as it is and the others unindented. -/
def unindentedLines : List (List Char) → Except SliceFault (List (List Char))
  | [] => .ok []
  | first :: others => do
      let unindented ← others.mapM (unindent (commonIndentation others))
      pure (first :: unindented)

/-- The value of a block string, given the text between its quotes. -/
def blockValue (raw : List Char) : Except SliceFault String := do
  let unindented ← unindentedLines (lines (unescapeBlock raw))
  pure (String.ofList (['\n'].intercalate (trimBlankLines unindented)))

end Text
end GraphQL

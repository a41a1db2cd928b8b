import GraphQL.Document
import GraphQL.Parsing.TypeSystem
import GraphQL.Token.Scanner

/-!
# Parsing documents

The entry point: a source gives a document, whatever its errors, and the findings about it.
-/

namespace GraphQL
namespace Parser

/-- The definition that the current token opens, after its description. -/
def definitionAfter (description : Option Description) : Parser (Option Definition) := do
  match ← kind with
  | .keyword .schema => return some (.schema (← schemaDefinition))
  | .keyword .directive => return some (.directive (← directiveDefinition description))
  | .keyword .fragment => return some (.fragment (← fragment))
  | .keyword .query => return some (.operation (← operation))
  | .keyword .mutation => return some (.operation (← operation))
  | .keyword .subscription => return some (.operation (← operation))
  | .punctuator .openBrace => return some (.operation (← operation))
  | .keyword .typeDefinition => return some (.type (← typeDefinition .typeDefinition description))
  | .keyword .interface => return some (.type (← typeDefinition .interface description))
  | .keyword .union => return some (.type (← typeDefinition .union description))
  | .keyword .enum => return some (.type (← typeDefinition .enum description))
  | .keyword .input => return some (.type (← typeDefinition .input description))
  | .keyword .scalar => return some (.type (← typeDefinition .scalar description))
  | .keyword .extend =>
      reportCurrent "type extensions are not supported"
      return none
  | _ =>
      reportCurrent "Expected a definition"
      return none

def definition? : Parser (Option Definition) := do
  definitionAfter (← description?)

/-- At most so many definitions up to the end of the input. -/
def definitionsWithin : Nat → Parser (List Definition)
  | 0 => return []
  | fuel + 1 => do
      if ← isAt .endOfInput then return []
      else
        let first ← progressing definition?
        let others ← definitionsWithin fuel
        return first.toList ++ others

def document : Parser Document := do
  let start ← position
  let definitions ← definitionsWithin (← depthBound)
  return { definitions, span := ← spanFrom start }

/-- The state before the first token. -/
def start (tokens : List Token) : ParserState :=
  match tokens with
  | [] =>
      { current := ⟨.endOfInput, ⟨0, 0⟩, some ""⟩, upcoming := [], previousEnd := 0, nextSetId := 0
        interner := .initial, diagnostics := [] }
  | first :: others =>
      { current := first, upcoming := others, previousEnd := 0, nextSetId := 0
        interner := .initial, diagnostics := [] }

end Parser

/-- A document with the names it uses and the findings about its source. -/
structure ParsedDocument where
  document : Document
  interner : Interner
  diagnostics : List Diagnostic

def ParsedDocument.hasErrors (parsed : ParsedDocument) : Bool :=
  Diagnostic.anyError parsed.diagnostics

/-- Reads the document that a list of tokens spells. -/
def Document.ofTokens (tokens : List Token) : Except SliceFault ParsedDocument := do
  let (document, state) ← Parser.document (Parser.start tokens)
  return { document, interner := state.interner, diagnostics := state.diagnostics }

/-- Reads the document in a source. -/
def Document.parse (source : String) : Except SliceFault ParsedDocument :=
  Document.ofTokens (Token.scan source)

end GraphQL

import GraphQL.Proofs.Parsing.Keeping
import GraphQL.Proofs.Text.Block
import GraphQL.Proofs.Text.Indentation

/-!
# Faults of parsing

A fault is due to a token ahead: its text is no piece of the source, or it is a block string without
a value. The parser reaches no tokens but those of the source, so a source has a document unless a
string in it ends in the backslash that the source ends in, or a block string has a blank line that
is cut inside a character. Every other range of bytes that is read is a piece of the source.
-/

namespace GraphQL

namespace Parser

/-- Only tokens ahead are reached, and a fault is due to one of them. -/
def StaysAhead (state : ParserState) : Except SliceFault ParserState → Prop
  | .ok after => ∀ token ∈ after.current :: after.upcoming, token ∈ state.current :: state.upcoming
  | .error fault => ∃ token ∈ state.current :: state.upcoming, token.Causes fault

instance : IsKeptByAll StaysAhead where
  refl _ _ member := member
  trans := by
    rintro state between (fault | after) ahead reached
    · rcases reached with ⟨token, member, causes⟩
      exact ⟨token, ahead token member, causes⟩
    · exact fun token member => ahead token (reached token member)
  advance state token member := by
    rcases state with ⟨current, _ | ⟨next, others⟩, previousEnd, nextSetId, interner, diagnostics⟩
    · exact member
    · exact List.mem_cons_of_mem current member
  report _ _ _ _ member := member
  intern _ _ _ member := member
  fault state _ causes := ⟨state.current, List.mem_cons_self, causes⟩
  number _ _ member := member

end Parser

namespace Document

/-- A fault is due to one of the tokens that are read. -/
theorem exists_causes_of_ofTokens {first : Token} {others : List Token} {fault : SliceFault}
    (stops : ofTokens (first :: others) = .error fault) :
    ∃ token ∈ first :: others, token.Causes fault := by
  have keeps : Parser.Keeps Parser.StaysAhead Parser.document := Parser.keeps_document
  have ahead := keeps (Parser.start (first :: others))
  rw [Parser.outcome] at ahead
  rw [ofTokens] at stops
  cases run : Parser.document (Parser.start (first :: others)) with
  | ok step =>
      rw [run] at stops
      cases stops
  | error found =>
      rw [run] at stops ahead
      cases stops
      exact ahead

theorem exists_causes_of_parse {source : String} {fault : SliceFault}
    (stops : parse source = .error fault) : ∃ token ∈ Token.scan source, token.Causes fault := by
  rw [parse] at stops
  cases tokens : Token.scan source with
  | nil =>
      rcases Token.scanFrom_eq_append 0 source.toList with ⟨others, last, scanned, _⟩
      rw [show Token.scanFrom 0 source.toList = [] from tokens] at scanned
      simp at scanned
  | cons first others =>
      rw [tokens] at stops
      exact exists_causes_of_ofTokens stops

/-- The source ends in a backslash, which belongs to a string without an end. -/
def EndsInString (source : String) : Prop :=
  source.toList.getLast? = some '\\' ∧ ∃ token ∈ Token.scan source, token.text? = none

/-- A blank line of a block string is cut inside a character. -/
def CutsBlankLine (source : String) : Prop :=
  ∃ token ∈ Token.scan source, token.kind = .blockString ∧ ∃ text, token.text? = some text ∧
    Text.CutsBlankLine (Text.lines (Text.unescapeBlock (Parser.bodyBetween 3 text)))

/-- What tokens and strings are read from lies inside the source and between its characters, and the
source has a document, unless a string ends in the last backslash or a blank line is cut. -/
theorem parse_stays_within_source (source : String) :
    (∀ token ∈ Token.scan source, token.IsInside source.toList ∧ token.IsQuoted) ∧
      ((∃ parsed, parse source = .ok parsed) ∨
        parse source = .error .pastEnd ∧ EndsInString source ∨
        parse source = .error .insideCharacter ∧ CutsBlankLine source) := by
  refine ⟨fun token member => ⟨Token.isInside_of_mem_scan member,
    Token.isQuoted_of_mem_scanFrom member⟩, ?_⟩
  cases run : parse source with
  | ok parsed => exact .inl ⟨parsed, rfl⟩
  | error fault =>
      rcases exists_causes_of_parse run with ⟨token, member, noText | ⟨isBlock, reads, noValue⟩⟩
      · rcases Token.isInside_of_mem_scan member with ⟨text, reads, _⟩ | ⟨_, _, isBackslash⟩
        · cases noText.symm.trans reads
        · exact .inr (.inl ⟨rfl, isBackslash, token, member, noText⟩)
      · rcases Text.blockValue_eq_error noValue with ⟨rfl, cuts⟩
        exact .inr (.inr ⟨rfl, token, member, isBlock, _, reads, cuts⟩)

theorem not_exists_of_isOk_eq_false {source : String} (fails : (parse source).isOk = false) :
    ¬∃ parsed, parse source = .ok parsed := by
  rintro ⟨parsed, parses⟩
  rw [parses] at fails
  cases fails

/-- A string that ends in the last backslash is read past the end of the source. -/
theorem parse_past_end : ¬∃ parsed, parse "directive @a on \"\\" = .ok parsed :=
  not_exists_of_isOk_eq_false (by decide +kernel)

/-- A no-break space takes two bytes, and the indentation in common is one. -/
theorem parse_inside_character :
    ¬∃ parsed, parse "\x7b f(a: \"\"\"\n a\n\u00a0\n b\"\"\") \x7d" = .ok parsed :=
  not_exists_of_isOk_eq_false (by decide +kernel)

end Document

end GraphQL

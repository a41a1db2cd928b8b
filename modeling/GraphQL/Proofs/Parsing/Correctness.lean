import GraphQL.Proofs.Parsing.Completeness
import GraphQL.Proofs.Parsing.Soundness
import GraphQL.Proofs.Token.Lexing

/-!
# Executable documents are read by their grammar

The parser finds nothing wrong with a source and reads operations and fragments only, exactly if the
grammar derives the tokens of the source; what it reads is then what the grammar spells. One direction
is that a quiet run consumes what the grammar derives, the other that a run over derived tokens is
quiet and gives the same document apart from places.
-/

namespace GraphQL

open Grammar

/-- The tokens of a source before the mark of its end. -/
def Token.beforeEnd (source : String) : List Token :=
  (scan source).takeWhile (·.kind != .endOfInput)

theorem Token.exists_scan_eq (source : String) :
    ∃ last, scan source = beforeEnd source ++ [last] ∧ last.kind = .endOfInput ∧
      ∀ token ∈ beforeEnd source, token.kind ≠ .endOfInput := by
  rcases scanFrom_eq_append 0 source.toList with ⟨tokens, last, same, isEnd, inside⟩
  have same : scan source = tokens ++ [last] := same
  have before : beforeEnd source = tokens := by
    rw [beforeEnd, same, List.takeWhile_append_of_pos fun token member => by
      simpa using inside token member]
    simp [isEnd]
  rw [before]
  exact ⟨last, same, isEnd, inside⟩

/-- A text that lexes is scanned into these tokens and the end. -/
theorem Token.beforeEnd_of_lexes {ends : List Char → Prop} {text : String}
    {spells : List Token → Prop} (lexes : Lexes ends text spells) (isEnd : ends []) :
    spells (beforeEnd text) := by
  rcases lexes 0 [] isEnd with ⟨tokens, next, scanned, spelled⟩
  rcases exists_scan_eq text with ⟨last, same, _⟩
  rw [List.append_nil, scanFrom_nil] at scanned
  have ends : beforeEnd text ++ [last] = tokens ++ [_] := same.symm.trans scanned
  rwa [(List.append_inj' ends rfl).1]

theorem Token.text?_of_mem_beforeEnd {source : String} {token : Token}
    (member : token ∈ beforeEnd source) (valid : token.kind ≠ .invalid) : token.text? ≠ none := by
  rcases exists_scan_eq source with ⟨last, same, _, inside⟩
  have scanned : token ∈ scan source := by
    rw [same]
    exact List.mem_append_left _ member
  exact text?_of_mem_scanFrom scanned (inside token member) valid

/-- The parser starts at the first token of a source. -/
theorem Parser.isAt_start (source : String) :
    (start (Token.scan source)).IsAt (Token.beforeEnd source) := by
  rcases Token.exists_scan_eq source with ⟨last, same, isEnd, inside⟩
  refine ⟨⟨last, ?_, isEnd⟩, inside⟩
  rw [same]
  cases Token.beforeEnd source <;> rfl

/-- A definition is executable whatever its places. -/
theorem Definition.isExecutable_unplaced (definition : Definition) :
    definition.unplaced.isExecutable = definition.isExecutable := by
  cases definition <;> rfl

theorem Grammar.SpellsDefinition.isExecutable {used : List Token} {definition : Definition}
    (spelled : SpellsDefinition used definition) : definition.isExecutable = true := by
  have ofExecutable {used : List Token} (spelled : SpellsExecutable used definition) :
      definition.isExecutable = true := by
    cases spelled <;> rfl
  cases spelled with
  | bare spelled => exact ofExecutable spelled
  | described _ spelled => exact ofExecutable spelled

theorem Grammar.SpellsDocument.isExecutable {tokens : List Token} {document : Document}
    (spelled : SpellsDocument tokens document) :
    ∀ definition ∈ document.definitions, definition.isExecutable = true := by
  rcases spelled with ⟨⟨each⟩⟩
  induction each with
  | nil => simp
  | cons first _ ih =>
      rintro definition (_ | ⟨_, member⟩)
      · exact first.isExecutable
      · exact ih definition member

namespace Document

section

variable {source : String} {parsed : ParsedDocument}

theorem exists_run_of_parse (parses : parse source = .ok parsed) :
    ∃ after, Parser.document (Parser.start (Token.scan source)) = .ok (parsed.document, after) ∧
      parsed.diagnostics = after.diagnostics := by
  rw [parse, ofTokens] at parses
  cases run : Parser.document (Parser.start (Token.scan source)) with
  | error fault =>
      rw [run] at parses
      cases parses
  | ok step =>
      rw [run] at parses
      cases parses
      exact ⟨step.2, rfl, rfl⟩

theorem diagnostics_start (tokens : List Token) : (Parser.start tokens).diagnostics = [] := by
  cases tokens <;> rfl

/-- A source without errors was read by a run that reports nothing. -/
theorem exists_quiet_run (parses : parse source = .ok parsed) (quiet : parsed.hasErrors = false) :
    ∃ after, Parser.document (Parser.start (Token.scan source)) = .ok (parsed.document, after) ∧
      after.diagnostics = [] := by
  rcases exists_run_of_parse parses with ⟨after, run, reported⟩
  rcases Parser.reads_document _ _ _ run with ⟨found, same, errors, -⟩
  rw [diagnostics_start, List.nil_append] at same
  refine ⟨after, run, List.eq_nil_iff_forall_not_mem.mpr fun diagnostic member => ?_⟩
  rw [ParsedDocument.hasErrors, reported, Diagnostic.anyError, List.any_eq_false] at quiet
  exact quiet diagnostic member (errors diagnostic (same ▸ member))

/-- What is read of a source without errors is read of all of its tokens. -/
theorem exists_of_parse {post : List Token → Document → List Token → Prop}
    (reads : Parser.Reads Parser.document post) (parses : parse source = .ok parsed)
    (quiet : parsed.hasErrors = false) :
    ∃ rest, post (Token.beforeEnd source) parsed.document rest := by
  rcases exists_quiet_run parses quiet with ⟨after, run, nothing⟩
  rcases reads _ _ _ run with ⟨found, same, -, holds⟩
  rw [diagnostics_start, List.nil_append, nothing] at same
  rcases holds same.symm _ (Parser.isAt_start source) with ⟨rest, _, holds⟩
  exact ⟨rest, holds⟩

/-- A source without errors whose definitions are executable spells its document. -/
theorem spells_of_parse (parses : parse source = .ok parsed) (quiet : parsed.hasErrors = false)
    (executable : ∀ definition ∈ parsed.document.definitions, definition.isExecutable = true) :
    SpellsDocument (Token.beforeEnd source) parsed.document := by
  rcases exists_of_parse Parser.reads_document parses quiet with ⟨_, spells⟩
  exact spells executable

/-- A source whose tokens the grammar derives is read without errors as what they spell. -/
theorem parse_of_spells (parses : parse source = .ok parsed) {document : Document}
    (spelled : SpellsDocument (Token.beforeEnd source) document) :
    parsed.hasErrors = false ∧ parsed.document.unplaced = document.unplaced := by
  rcases exists_run_of_parse parses with ⟨after, run, reported⟩
  rcases Parser.takes_document spelled (fun _ => Token.text?_of_mem_beforeEnd) _
    (Parser.isAt_start source) with ⟨result, ends, taken, quiet, _, same⟩
  rw [taken] at run
  cases run
  refine ⟨?_, same⟩
  rw [ParsedDocument.hasErrors, reported, quiet, diagnostics_start]
  rfl

theorem isExecutable_of_unplaced_eq {document other : Document}
    (same : document.unplaced = other.unplaced)
    (executable : ∀ definition ∈ other.definitions, definition.isExecutable = true) :
    ∀ definition ∈ document.definitions, definition.isExecutable = true := by
  have same : document.definitions.map Definition.unplaced =
      other.definitions.map Definition.unplaced :=
    congrArg Document.definitions same
  intro definition member
  have mapped : definition.unplaced ∈ document.definitions.map Definition.unplaced :=
    List.mem_map_of_mem member
  rw [same] at mapped
  rcases List.mem_map.mp mapped with ⟨given, isGiven, sameDefinition⟩
  rw [← definition.isExecutable_unplaced, ← sameDefinition, given.isExecutable_unplaced]
  exact executable given isGiven

/-- A source is read without errors, as operations and fragments, if and only if the grammar derives
its tokens; what is read is then the document that they spell. -/
theorem parse_iff_spells (parses : parse source = .ok parsed) :
    (parsed.hasErrors = false ∧
        (∀ definition ∈ parsed.document.definitions, definition.isExecutable = true) ↔
      ∃ document, SpellsDocument (Token.beforeEnd source) document) ∧
    ∀ document, SpellsDocument (Token.beforeEnd source) document →
      SpellsDocument (Token.beforeEnd source) parsed.document ∧
        parsed.document.unplaced = document.unplaced := by
  have accepts {document : Document} (spelled : SpellsDocument (Token.beforeEnd source) document) :
      parsed.hasErrors = false ∧
        ∀ definition ∈ parsed.document.definitions, definition.isExecutable = true := by
    rcases parse_of_spells parses spelled with ⟨quiet, same⟩
    exact ⟨quiet, isExecutable_of_unplaced_eq same spelled.isExecutable⟩
  refine ⟨⟨?_, fun ⟨_, spelled⟩ => accepts spelled⟩, fun document spelled => ?_⟩
  · rintro ⟨quiet, executable⟩
    exact ⟨_, spells_of_parse parses quiet executable⟩
  · rcases accepts spelled with ⟨quiet, executable⟩
    exact ⟨spells_of_parse parses quiet executable, (parse_of_spells parses spelled).2⟩

end

namespace Mixed

/-- Keywords stand for names, and every kind of selection occurs. -/
def source : String :=
  "\"all\" query type($on: [Int!]! = [1, 2] @a) \x7b fragment: on(null: \x7bx: $on\x7d) @b \x7b ...F \x7d
    ... @skip(if: true) \x7b query \x7d ... on on \x7b e \x7d \x7d
  fragment F on Query \x7b x(v: [FAST, null, \"s\"]) \x7d"

theorem evaluation : (Document.parse source).toOption.any (fun parsed =>
    !parsed.hasErrors && parsed.document.definitions.all Definition.isExecutable) = true := by
  decide +kernel

/-- The source is accepted, so its tokens spell the document that is read. -/
theorem spells_document : ∃ parsed, Document.parse source = .ok parsed ∧
    parsed.hasErrors = false ∧ ∃ document, SpellsDocument (Token.beforeEnd source) document ∧
      parsed.document.unplaced = document.unplaced := by
  have accepted := evaluation
  cases parses : Document.parse source with
  | error fault =>
      rw [parses] at accepted
      cases accepted
  | ok parsed =>
      rw [parses] at accepted
      rcases Bool.and_eq_true_iff.mp accepted with ⟨quiet, executable⟩
      rcases parse_iff_spells parses with ⟨accepts, spells⟩
      rcases accepts.mp ⟨by simpa using quiet, List.all_eq_true.mp executable⟩ with
        ⟨document, spelled⟩
      exact ⟨parsed, rfl, by simpa using quiet, document, spelled, (spells document spelled).2⟩

end Mixed

end Document

end GraphQL

import GraphQL.Proofs.Parsing.Keeping
import GraphQL.Proofs.Walk

/-!
# Numbers of selection sets

A parser gives a number to every selection set when the set starts, before the sets inside. So the
sets that it reads have consecutive numbers in the order of the source, and no two sets of a parsed
document have the same number. Most parsers read no selection set at all and leave the next number
as it is.
-/

namespace GraphQL
namespace Parser

variable {α β : Type}

/-- No number has been given away. -/
def HasSameNumber (state : ParserState) : Except SliceFault ParserState → Prop
  | .ok after => after.nextSetId = state.nextSetId
  | .error _ => True

instance : IsKept HasSameNumber where
  refl _ := rfl
  trans {_ _ outcome} first second := by
    cases outcome with
    | error fault => trivial
    | ok after => exact second.trans first
  advance state := by
    rcases state with ⟨current, _ | ⟨next, others⟩, previousEnd, nextSetId, interner, diagnostics⟩
    · rfl
    · rfl
  report _ _ _ := rfl
  intern _ _ := rfl
  fault _ _ _ := trivial

/-! ## Parsers of selection sets -/

/-- The numbers follow one another, and another one comes after them. -/
structure AreConsecutive (first : Nat) (numbers : List Nat) (next : Nat) : Prop where
  listed : numbers = List.range' first numbers.length
  ends : next = first + numbers.length

theorem AreConsecutive.nil (first : Nat) : AreConsecutive first [] first :=
  ⟨rfl, rfl⟩

theorem AreConsecutive.append {first middle last : Nat} {numbers others : List Nat}
    (before : AreConsecutive first numbers middle) (after : AreConsecutive middle others last) :
    AreConsecutive first (numbers ++ others) last := by
  rcases before with ⟨listed, rfl⟩
  rcases after with ⟨othersListed, rfl⟩
  constructor
  · calc
      numbers ++ others = List.range' first numbers.length
          ++ List.range' (first + numbers.length) others.length := by
        rw [← listed, ← othersListed]
      _ = List.range' first (numbers ++ others).length := by
        rw [List.range'_append_1, List.length_append]
  · simp only [List.length_append]
    omega

theorem AreConsecutive.nodup {first next : Nat} {numbers : List Nat}
    (consecutive : AreConsecutive first numbers next) : numbers.Nodup := by
  rw [consecutive.listed]
  exact List.nodup_range'

/-- After some numbers, the parser gives a result with all numbers so far. -/
def Numbers (before : List Nat) (parser : Parser α) (numbers : α → List Nat) : Prop :=
  ∀ first state result after, AreConsecutive first before state.nextSetId →
    parser state = .ok (result, after) → AreConsecutive first (numbers result) after.nextSetId

theorem Numbers.plain {before : List Nat} {parser : Parser α} (plain : Keeps HasSameNumber parser) :
    Numbers before parser fun _ => before := by
  intro first state result after consecutive run
  have same : after.nextSetId = state.nextSetId := plain.of_ok run
  rw [same]
  exact consecutive

theorem Numbers.pure {before : List Nat} {value : α} {numbers : α → List Nat}
    (same : numbers value = before) : Numbers before (pure value) numbers := by
  intro first state result after consecutive run
  cases run
  rw [same]
  exact consecutive

theorem Numbers.pure_bind {before : List Nat} {value : α} {next : α → Parser β}
    {numbers : β → List Nat} (continues : Numbers before (next value) numbers) :
    Numbers before (Pure.pure value >>= next) numbers :=
  continues

theorem Numbers.bind {before : List Nat} {parser : Parser α} {next : α → Parser β}
    {numbers : α → List Nat} {allNumbers : β → List Nat} (reads : Numbers before parser numbers)
    (continues : ∀ value, Numbers (numbers value) (next value) allNumbers) :
    Numbers before (parser >>= next) allNumbers := by
  intro first state result after consecutive run
  rcases exists_of_bind run with ⟨value, between, begun, continued⟩
  exact continues value first between result after
    (reads first state value between consecutive begun) continued

/-- What a parser numbers comes after all numbers so far. -/
theorem Numbers.later {before : List Nat} {parser : Parser α} {numbers : α → List Nat}
    (reads : Numbers [] parser numbers) :
    Numbers before parser fun value => before ++ numbers value := by
  intro first state result after consecutive run
  exact consecutive.append (reads state.nextSetId state result after (.nil _) run)

/-- A parser without selection sets changes nothing. -/
theorem Numbers.after {before : List Nat} {parser : Parser α} {next : α → Parser β}
    {numbers : β → List Nat} (plain : Keeps HasSameNumber parser)
    (continues : ∀ value, Numbers before (next value) numbers) :
    Numbers before (parser >>= next) numbers :=
  .bind (.plain plain) continues

theorem numbers_takeSetId {before : List Nat} :
    Numbers before takeSetId fun id => before ++ [id] := by
  intro first state result after consecutive run
  cases run
  exact consecutive.append ⟨rfl, rfl⟩

theorem Numbers.progressing {item : Parser α} {numbers : α → List Nat}
    (reads : Numbers [] item numbers) : Numbers [] (progressing item) numbers := by
  refine .after .get fun start => .bind reads fun value => ?_
  refine .after .get fun stop => ?_
  split
  · exact .after keeps_advance fun _ => .pure rfl
  · exact .pure rfl

theorem Numbers.itemsThrough {item : Parser α} {numbers : α → List Nat}
    (reads : Numbers [] item numbers) (closing : Punctuator) :
    Numbers [] (itemsThrough closing item) fun items => items.flatMap numbers := by
  have within (fuel : Nat) :
      Numbers [] (itemsWithin closing item fuel) fun items => items.flatMap numbers := by
    induction fuel with
    | zero => exact .pure rfl
    | succ fuel ih =>
        refine .after (keeps_isAtEndOf closing) fun isAtEnd => ?_
        split
        · exact .pure rfl
        · refine .bind reads.progressing fun value => .bind ih.later fun others => .pure ?_
          simp
  refine .bind (.after .get fun state => within _) fun items => ?_
  exact .after (keeps_expectMark closing) fun _ => .pure rfl

/-- The numbers of the selection sets in a selection. -/
def selectionNumbers (selection : Selection) : List Nat :=
  selection.sets.map (·.id)

/-- The numbers of a selection set and of those inside it. -/
def setNumbers (selections : SelectionSet) : List Nat :=
  selections.sets.map (·.id)

theorem setNumbers_mk (id : Nat) (items : List Selection) (span : Span) :
    setNumbers ⟨id, items, span⟩ = id :: items.flatMap selectionNumbers := by
  have inside : (Selection.listSets items).map (·.id) = items.flatMap selectionNumbers := by
    induction items with
    | nil => simp [Selection.listSets]
    | cons first rest ih => simp [Selection.listSets, selectionNumbers, ih]
  simp [setNumbers, SelectionSet.sets, inside]

section Selections

variable {inner : Parser SelectionSet}

theorem numbers_fieldSelection (reads : Numbers [] inner setNumbers) :
    Numbers [] (fieldSelection inner) selectionNumbers := by
  refine .after keeps_position fun start => .after keeps_name fun first => ?_
  have ending (responseAlias : Option Name) (name : Name) : Numbers [] (do
      let arguments ← arguments
      let directives ← directives
      let selections ←
        if ← isAt (.punctuator .openBrace) then pure (some (← inner)) else pure none
      return .field { responseAlias, name, arguments, directives, span := ← spanFrom start }
        selections) selectionNumbers := by
    refine .after keeps_arguments fun arguments => .after keeps_directives fun directives => ?_
    refine .after (keeps_isAt _) fun opens => ?_
    split
    · refine .bind reads fun selections => .pure_bind ?_
      refine .after (keeps_spanFrom start) fun span => .pure ?_
      simp [selectionNumbers, setNumbers, Selection.sets]
    · refine .pure_bind ?_
      refine .after (keeps_spanFrom start) fun span => .pure ?_
      simp [selectionNumbers, Selection.sets]
  refine .after (keeps_eatMark _) fun renamed => ?_
  split
  · exact .after keeps_name fun name => ending (some first) name
  · exact ending none first

theorem numbers_spreadSelection (reads : Numbers [] inner setNumbers) (start : Nat) :
    Numbers [] (spreadSelection start inner) selectionNumbers := by
  have inlineFragment (typeCondition : Option Name) : Numbers [] (do
      let directives ← directives
      let selections ← inner
      return .inlineFragment { typeCondition, directives, span := ← spanFrom start } selections)
      selectionNumbers := by
    refine .after keeps_directives fun directives => .bind reads fun selections => ?_
    refine .after (keeps_spanFrom start) fun span => .pure ?_
    simp [selectionNumbers, setNumbers, Selection.sets]
  have spread : Numbers [] (do
      let name ← name
      let directives ← directives
      return .spread { name, directives, span := ← spanFrom start }) selectionNumbers := by
    refine .after keeps_name fun name => .after keeps_directives fun directives => ?_
    refine .after (keeps_spanFrom start) fun span => .pure ?_
    simp [selectionNumbers, Selection.sets]
  refine .after (keeps_eat _) fun conditioned => ?_
  split
  · exact .after keeps_name fun condition => inlineFragment (some condition)
  · refine .after (keeps_isAt _) fun opens => .after (keeps_isAt _) fun directed => ?_
    split
    · exact inlineFragment none
    · exact spread

theorem numbers_selection (reads : Numbers [] inner setNumbers) :
    Numbers [] (selection inner) selectionNumbers := by
  refine .after keeps_position fun start => .after (keeps_eatMark _) fun spreads => ?_
  split
  · exact numbers_spreadSelection reads start
  · exact numbers_fieldSelection reads

end Selections

/-- A set takes its number before the sets inside it take theirs. -/
theorem numbers_selectionSetWithin (depth : Nat) :
    Numbers [] (selectionSetWithin depth) setNumbers := by
  have finish (start id : Nat) (items : List Selection) :
      Numbers (id :: items.flatMap selectionNumbers)
        (do return { id, items, span := ← spanFrom start }) setNumbers :=
    .after (keeps_spanFrom start) fun span => .pure (setNumbers_mk id items span)
  induction depth with
  | zero =>
      refine .after keeps_position fun start => .bind numbers_takeSetId fun id => ?_
      exact finish start id []
  | succ depth ih =>
      refine .after keeps_position fun start => .bind numbers_takeSetId fun id => ?_
      refine .after (keeps_expect _) fun opens => ?_
      split
      · refine .bind ((numbers_selection ih).itemsThrough .closeBrace).later fun items => ?_
        exact finish start id items
      · exact finish start id []

theorem numbers_selectionSet : Numbers [] selectionSet setNumbers :=
  .after keeps_depthBound numbers_selectionSetWithin

/-! ## Documents -/

/-- The numbers of the selection sets in a definition. -/
def definitionNumbers (definition : Definition) : List Nat :=
  (Document.definitionSets definition).map (·.id)

theorem numbers_operation :
    Numbers [] operation fun definition => setNumbers definition.selections := by
  refine .after keeps_position fun start => .after keeps_operationHead fun (kind, name) => ?_
  refine .after (keeps_variableDefinition.optionalItems _ _) fun variableDefinitions => ?_
  refine .after keeps_directives fun directives => ?_
  refine .bind numbers_selectionSet fun selections => ?_
  exact .after (keeps_spanFrom start) fun span => .pure rfl

theorem numbers_fragment :
    Numbers [] fragment fun definition => setNumbers definition.selections := by
  refine .after keeps_position fun start => .after keeps_advance fun _ => ?_
  refine .after keeps_name fun name => .after (keeps_expect _) fun _ => ?_
  refine .after keeps_name fun typeCondition => .after keeps_directives fun directives => ?_
  refine .bind numbers_selectionSet fun selections => ?_
  exact .after (keeps_spanFrom start) fun span => .pure rfl

theorem numbers_definition? :
    Numbers [] definition? fun definition => definition.toList.flatMap definitionNumbers := by
  have withoutSets {γ : Type} {parser : Parser γ} {definition : γ → Definition}
      (plain : Keeps HasSameNumber parser) (without : ∀ value, definitionNumbers (definition value) = []) :
      Numbers [] (do return some (definition (← parser)))
        fun definition => definition.toList.flatMap definitionNumbers :=
    .after plain fun value => .pure (by simp [without])
  have ofOperation : Numbers [] (do return some (.operation (← operation)))
      fun definition => definition.toList.flatMap definitionNumbers :=
    .bind numbers_operation fun definition => .pure (by simp [definitionNumbers,
      Document.definitionSets, setNumbers])
  have nothing (title : String) : Numbers [] (do reportCurrent title; return none)
      fun definition : Option Definition => definition.toList.flatMap definitionNumbers :=
    .after (keeps_reportCurrent title) fun _ => .pure rfl
  refine .after keeps_description? fun description => .after keeps_kind fun kind => ?_
  split
  · exact withoutSets keeps_schemaDefinition fun _ => rfl
  · exact withoutSets (keeps_directiveDefinition description) fun _ => rfl
  · exact .bind numbers_fragment fun definition => .pure (by simp [definitionNumbers,
      Document.definitionSets, setNumbers])
  · exact ofOperation
  · exact ofOperation
  · exact ofOperation
  · exact ofOperation
  · exact withoutSets (keeps_typeDefinition _ description) fun _ => rfl
  · exact withoutSets (keeps_typeDefinition _ description) fun _ => rfl
  · exact withoutSets (keeps_typeDefinition _ description) fun _ => rfl
  · exact withoutSets (keeps_typeDefinition _ description) fun _ => rfl
  · exact withoutSets (keeps_typeDefinition _ description) fun _ => rfl
  · exact withoutSets (keeps_typeDefinition _ description) fun _ => rfl
  · exact nothing _
  · exact nothing _

theorem numbers_definitionsWithin (fuel : Nat) :
    Numbers [] (definitionsWithin fuel) fun definitions => definitions.flatMap definitionNumbers := by
  induction fuel with
  | zero => exact .pure rfl
  | succ fuel ih =>
      refine .after (keeps_isAt _) fun isAtEnd => ?_
      split
      · exact .pure rfl
      · refine .bind numbers_definition?.progressing fun first => ?_
        refine .bind ih.later fun others => .pure ?_
        simp

theorem numbers_document :
    Numbers [] document fun document => document.sets.map (·.id) := by
  refine .after keeps_position fun start => .after keeps_depthBound fun fuel => ?_
  refine .bind (numbers_definitionsWithin fuel) fun definitions => ?_
  refine .after (keeps_spanFrom start) fun span => .pure ?_
  simp only [Document.sets, List.map_flatMap]
  rfl

end Parser

namespace Document

/-- The numbers in a parsed document are those that the parser gave away, from zero on. -/
theorem areConsecutive_of_parse {source : String} {parsed : ParsedDocument}
    (parses : parse source = .ok parsed) :
    ∃ state, Parser.document (Parser.start (Token.scan source)) = .ok (parsed.document, state) ∧
      Parser.AreConsecutive 0 (parsed.document.sets.map (·.id)) state.nextSetId := by
  simp only [parse, ofTokens] at parses
  cases run : Parser.document (Parser.start (Token.scan source)) with
  | error fault => simp [run, bind, Except.bind] at parses
  | ok step =>
      rcases step with ⟨document, state⟩
      simp only [run, bind, Except.bind, pure, Except.pure, Except.ok.injEq] at parses
      subst parses
      have unnumbered : (Parser.start (Token.scan source)).nextSetId = 0 := by
        unfold Parser.start
        split <;> rfl
      refine ⟨state, rfl, Parser.numbers_document 0 _ document state ?_ run⟩
      exact ⟨rfl, unnumbered⟩

/-- The selection sets of a parsed document have different numbers. -/
theorem parse_hasDistinctNumbers {source : String} {parsed : ParsedDocument}
    (parses : parse source = .ok parsed) : parsed.document.HasDistinctNumbers := by
  rcases areConsecutive_of_parse parses with ⟨state, -, consecutive⟩
  exact consecutive.nodup

/-- Whatever the errors of a source, the selection sets of its document are numbered from zero on in
the order of the source, each before those inside it. None is numbered twice, and the parser has
given away no other numbers. -/
theorem sets_numbered_of_parse {source : String} {parsed : ParsedDocument}
    (parses : parse source = .ok parsed) :
    parsed.document.sets.map (·.id) = List.range parsed.document.sets.length ∧
      parsed.document.HasDistinctNumbers ∧
      ∃ state, Parser.document (Parser.start (Token.scan source)) = .ok (parsed.document, state) ∧
        state.nextSetId = parsed.document.sets.length := by
  rcases areConsecutive_of_parse parses with ⟨state, run, consecutive⟩
  rcases consecutive with ⟨listed, ends⟩
  rw [List.length_map] at listed ends
  refine ⟨?_, parse_hasDistinctNumbers parses, state, run, ?_⟩
  · rw [listed, List.range_eq_range']
  · rw [ends, Nat.zero_add]

namespace HalfWritten

/-- A stray parenthesis, two sets that are never opened and one that is never closed. -/
def source : String :=
  "\x7b a \x7b b ... on T ) \x7d c \x7b \x7d \x7d fragment F on T fragment \x7b"

theorem numbered_nonetheless : ∃ parsed, parse source = .ok parsed ∧ parsed.hasErrors = true ∧
    parsed.document.sets.map (·.id) = [0, 1, 2, 3, 4, 5] := by
  have run : ((parse source).toOption.map fun parsed =>
      (parsed.hasErrors, parsed.document.sets.length)) = some (true, 6) := by
    decide +kernel
  cases parses : parse source with
  | error fault =>
      rw [parses] at run
      cases run
  | ok parsed =>
      rw [parses] at run
      simp only [Except.toOption, Option.map_some, Option.some.injEq, Prod.mk.injEq] at run
      rcases sets_numbered_of_parse parses with ⟨numbers, -⟩
      refine ⟨parsed, rfl, run.1, ?_⟩
      rw [numbers, run.2]
      rfl

end HalfWritten

end Document

end GraphQL

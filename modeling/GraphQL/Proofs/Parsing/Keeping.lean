import GraphQL.Proofs.Parsing.Ahead

/-!
# What parsers keep

Parsers are put together from few steps: they look ahead, consume a token, report an error, keep a
name, number a selection set or fail at a token that has no text or no value. What relates a state
to the outcome of each step relates it to the outcome of every parser put together from them. All
parsers but those of selection sets do without the step that numbers.
-/

namespace GraphQL

/-- A token that no parser can read: its text is no piece of the source, or the text of a block
string has no value. -/
inductive Token.Causes (token : Token) : SliceFault → Prop
  | noText : token.text? = none → token.Causes .pastEnd
  | noValue {text : String} {fault : SliceFault} : token.kind = .blockString →
      token.text? = some text → Text.blockValue (Parser.bodyBetween 3 text) = .error fault →
      token.Causes fault

namespace Parser

variable {α β : Type}

/-- The state that a run ends in, or the fault that stops it. -/
def outcome (parser : Parser α) (state : ParserState) : Except SliceFault ParserState :=
  match parser state with
  | .ok (_, after) => .ok after
  | .error fault => .error fault

theorem outcome_bind (parser : Parser α) (next : α → Parser β) (state : ParserState) :
    outcome (parser >>= next) state = match parser state with
      | .ok (value, between) => outcome (next value) between
      | .error fault => .error fault := by
  simp only [outcome, Bind.bind, StateT.bind, Except.bind]
  cases parser state <;> rfl

/-- A relation between states and outcomes that all steps of parsers keep, other than numbering a
selection set. -/
class IsKept (rel : ParserState → Except SliceFault ParserState → Prop) : Prop where
  refl : ∀ state, rel state (.ok state)
  trans : ∀ {state between outcome}, rel state (.ok between) → rel between outcome →
    rel state outcome
  advance : ∀ state, rel state (.ok state.advanced)
  report : ∀ (state : ParserState) (diagnostic : Diagnostic), diagnostic.isError = true →
    rel state (.ok { state with diagnostics := state.diagnostics ++ [diagnostic] })
  intern : ∀ (state : ParserState) (name : String),
    rel state (.ok { state with interner := state.interner.intern name })
  fault : ∀ (state : ParserState) (fault : SliceFault), state.current.Causes fault →
    rel state (.error fault)

/-- Numbering a selection set keeps the relation as well. -/
class IsKeptByAll (rel : ParserState → Except SliceFault ParserState → Prop) : Prop
    extends IsKept rel where
  number : ∀ state : ParserState, rel state (.ok { state with nextSetId := state.nextSetId + 1 })

/-- A run of the parser keeps the relation. -/
def Keeps (rel : ParserState → Except SliceFault ParserState → Prop) (parser : Parser α) : Prop :=
  ∀ state, rel state (parser.outcome state)

variable {rel : ParserState → Except SliceFault ParserState → Prop}

theorem Keeps.of_ok {parser : Parser α} {state after : ParserState} {result : α}
    (keeps : Keeps rel parser) (run : parser state = .ok (result, after)) :
    rel state (.ok after) := by
  have kept := keeps state
  rwa [outcome, run] at kept

variable [IsKept rel]

namespace Keeps

theorem pure (value : α) : Keeps rel (Pure.pure value) :=
  fun state => IsKept.refl state

theorem get : Keeps rel (get : Parser ParserState) :=
  fun state => IsKept.refl state

omit [IsKept rel] in
theorem modify {change : ParserState → ParserState}
    (keeps : ∀ state, rel state (.ok (change state))) :
    Keeps rel (modify change : Parser PUnit) :=
  keeps

theorem bind {parser : Parser α} {next : α → Parser β} (keeps : Keeps rel parser)
    (continues : ∀ value, Keeps rel (next value)) : Keeps rel (parser >>= next) := by
  intro state
  rw [outcome_bind]
  cases run : parser state with
  | error fault =>
      have stopped := keeps state
      rwa [outcome, run] at stopped
  | ok step => exact IsKept.trans (keeps.of_ok run) (continues step.1 step.2)

omit [IsKept rel] in
/-- What follows may depend on the current token. -/
theorem bind_kind {next : TokenKind → Parser α}
    (keeps : ∀ state, rel state (outcome (next state.current.kind) state)) :
    Keeps rel (kind >>= next) :=
  keeps

omit [IsKept rel] in
theorem ite {condition : Prop} [Decidable condition] {parser other : Parser α}
    (keeps : Keeps rel parser) (otherKeeps : Keeps rel other) :
    Keeps rel (if condition then parser else other) := by
  split
  · exact keeps
  · exact otherKeeps

end Keeps

theorem keeps_kind : Keeps rel kind :=
  .bind .get fun _ => .pure _

theorem keeps_currentSpan : Keeps rel currentSpan :=
  .bind .get fun _ => .pure _

theorem keeps_position : Keeps rel position :=
  .bind .get fun _ => .pure _

theorem keeps_isAt (expected : TokenKind) : Keeps rel (isAt expected) :=
  .bind keeps_kind fun _ => .pure _

theorem keeps_isAtEndOf (closing : Punctuator) : Keeps rel (isAtEndOf closing) :=
  .bind keeps_kind fun _ => .pure _

theorem keeps_depthBound : Keeps rel depthBound :=
  .bind .get fun _ => .pure _

theorem keeps_spanFrom (start : Nat) : Keeps rel (spanFrom start) :=
  .bind .get fun _ => .pure _

/-- A value with the span of what has been read. -/
theorem keeps_spanned (start : Nat) (value : Span → α) :
    Keeps rel (do return value (← spanFrom start)) :=
  .bind (keeps_spanFrom start) fun _ => .pure _

theorem keeps_advance : Keeps rel advance :=
  .modify IsKept.advance

theorem keeps_report {diagnostic : Diagnostic} (isError : diagnostic.isError = true) :
    Keeps rel (report diagnostic) :=
  .modify fun state => IsKept.report state diagnostic isError

theorem keeps_intern (name : String) : Keeps rel (intern name) :=
  .modify fun state => IsKept.intern state name

theorem keeps_eat (expected : TokenKind) : Keeps rel (eat expected) :=
  .bind (keeps_isAt expected) fun _ => .ite (.bind keeps_advance fun _ => .pure _) (.pure _)

theorem keeps_reportCurrent (title : String) : Keeps rel (reportCurrent title) :=
  .bind .get fun _ => keeps_report rfl

theorem keeps_reportExpected (expected : TokenKind) : Keeps rel (reportExpected expected) :=
  .bind .get fun _ => keeps_report rfl

theorem keeps_expect (expected : TokenKind) : Keeps rel (expect expected) :=
  .bind (keeps_eat expected) fun _ =>
    .ite (.pure _) (.bind (keeps_reportExpected expected) fun _ => .pure _)

theorem keeps_expectMark (mark : Punctuator) : Keeps rel (expectMark mark) :=
  .bind (keeps_expect _) fun _ => .pure _

theorem keeps_eatMark (mark : Punctuator) : Keeps rel (eatMark mark) :=
  keeps_eat _

theorem currentText_eq (state : ParserState) :
    currentText state = match state.current.text? with
      | some text => .ok (text, state)
      | none => .error .pastEnd := by
  change (match state.current.text? with
    | some text => return text
    | none => throw SliceFault.pastEnd : Parser String) state = _
  cases state.current.text? <;> rfl

theorem keeps_currentText : Keeps rel currentText := by
  intro state
  rw [outcome, currentText_eq]
  cases found : state.current.text? with
  | none => exact IsKept.fault state _ (.noText found)
  | some text => exact IsKept.refl state

theorem keeps_name : Keeps rel name := by
  have missing (span : Span) : Keeps rel (do intern ""; return Name.mk "" span) :=
    .bind (keeps_intern _) fun _ => .pure _
  refine .bind .get fun state => .ite ?_ ?_
  · refine .bind keeps_currentText fun text => .bind (keeps_intern _) fun _ => ?_
    exact .bind keeps_advance fun _ => .pure _
  · refine .bind (keeps_reportCurrent _) fun _ => .ite ?_ (missing _)
    exact .bind keeps_currentText fun _ => missing _

section Lists

variable {item : Parser α}

theorem Keeps.progressing (keeps : Keeps rel item) : Keeps rel (progressing item) :=
  .bind .get fun _ => .bind keeps fun _ => .bind .get fun _ =>
    .ite (.bind keeps_advance fun _ => .pure _) (.pure _)

theorem Keeps.itemsWithin (keeps : Keeps rel item) (closing : Punctuator) (fuel : Nat) :
    Keeps rel (itemsWithin closing item fuel) := by
  induction fuel with
  | zero => exact .pure _
  | succ fuel ih =>
      refine .bind (keeps_isAtEndOf closing) fun isAtEnd => .ite (.pure _) ?_
      exact .bind keeps.progressing fun first => .bind ih fun others => .pure _

theorem Keeps.itemsThrough (keeps : Keeps rel item) (closing : Punctuator) :
    Keeps rel (itemsThrough closing item) :=
  .bind (.bind .get fun _ => keeps.itemsWithin closing _) fun _ =>
    .bind (keeps_expectMark closing) fun _ => .pure _

theorem Keeps.optionalItems (keeps : Keeps rel item) (opening closing : Punctuator) :
    Keeps rel (optionalItems opening closing item) :=
  .bind (keeps_eatMark opening) fun _ => .ite (keeps.itemsThrough closing) (.pure _)

theorem Keeps.furtherItems (keeps : Keeps rel item) (separator : Punctuator) (fuel : Nat) :
    Keeps rel (furtherItems separator item fuel) := by
  induction fuel with
  | zero => exact .pure _
  | succ fuel ih =>
      refine .bind (keeps_eatMark separator) fun isThere => .ite ?_ (.pure _)
      exact .bind keeps fun first => .bind ih fun others => .pure _

theorem Keeps.separatedItems (keeps : Keeps rel item) (separator : Punctuator) :
    Keeps rel (separatedItems separator item) :=
  .bind keeps fun _ => .bind .get fun _ =>
    .bind (keeps.furtherItems separator _) fun _ => .pure _

theorem Keeps.leadItems (keeps : Keeps rel item) (leading : Punctuator) (fuel : Nat) :
    Keeps rel (leadItems leading item fuel) := by
  induction fuel with
  | zero => exact .pure _
  | succ fuel ih =>
      refine .bind (keeps_isAt _) fun isThere => .ite ?_ (.pure _)
      exact .bind keeps fun first => .bind ih fun others => .pure _

theorem Keeps.repeatedItems (keeps : Keeps rel item) (leading : Punctuator) :
    Keeps rel (repeatedItems leading item) :=
  .bind .get fun _ => keeps.leadItems leading _

end Lists

theorem keeps_typeExpression : Keeps rel typeExpression := by
  have within (depth : Nat) : Keeps rel (typeExpressionWithin depth) := by
    induction depth with
    | zero => exact .bind keeps_name fun _ => .pure _
    | succ depth ih =>
        have marked (start : Nat) (type : TypeExpression) : Keeps rel (do
            if ← eatMark .bang then return .nonNull type (← spanFrom start) else return type) :=
          .bind (keeps_eatMark _) fun _ => .ite (keeps_spanned start _) (.pure _)
        refine .bind keeps_position fun start => .bind (keeps_eatMark _) fun opens => .ite ?_ ?_
        · refine .bind ih fun item => .bind (keeps_expectMark _) fun _ => ?_
          exact .bind (keeps_spanFrom start) fun span => marked start (.list item span)
        · exact .bind keeps_name fun name => marked start (.named name)
  exact .bind keeps_depthBound within

theorem keeps_intLiteral : Keeps rel intLiteral := by
  refine .bind keeps_currentText fun text => .bind keeps_currentSpan fun span => ?_
  refine .bind keeps_advance fun _ => .ite (.pure _) ?_
  exact .bind (keeps_report rfl) fun _ => .pure _

theorem keeps_variableLiteral (constant : Bool) : Keeps rel (variableLiteral constant) := by
  refine .bind keeps_position fun start => .bind keeps_advance fun _ => ?_
  refine .bind keeps_name fun name => .bind (keeps_spanFrom start) fun span => ?_
  exact .ite (.bind (keeps_report rfl) fun _ => .pure _) (.pure _)

/-- The value belongs to the token that has just been consumed. -/
theorem keeps_blockStringLiteral (span : Span) {state : ParserState}
    (isBlock : state.current.kind = .blockString) : rel state (outcome (do
      let text ← currentText
      advance
      let value ← (Text.blockValue (bodyBetween 3 text) : Except SliceFault String)
      return Literal.string value span) state) := by
  rw [outcome_bind, currentText_eq]
  cases found : state.current.text? with
  | none => exact IsKept.fault state _ (.noText found)
  | some text =>
      change rel state (outcome (do
        let value ← (Text.blockValue (bodyBetween 3 text) : Except SliceFault String)
        return Literal.string value span) state.advanced)
      cases means : Text.blockValue (bodyBetween 3 text) with
      | error fault => exact IsKept.fault state fault (.noValue isBlock found means)
      | ok value => exact IsKept.advance state

theorem keeps_simpleLiteral : Keeps rel simpleLiteral := by
  have word (literal : Literal) : Keeps rel (do advance; return literal) :=
    .bind keeps_advance fun _ => .pure _
  refine .bind keeps_currentSpan fun span => .bind_kind fun state => ?_
  generalize isKind : state.current.kind = kind
  split
  · exact keeps_intLiteral state
  · exact (.bind keeps_currentText fun text => word _ : Keeps rel _) state
  · exact (.bind keeps_currentText fun text => word _ : Keeps rel _) state
  · exact keeps_blockStringLiteral span isKind
  · exact word _ state
  · exact word _ state
  · exact word _ state
  · exact (.ite (.bind keeps_name fun name => .pure _)
      (.bind (keeps_reportCurrent _) fun _ => .pure _) : Keeps rel _) state

theorem keeps_literalWithin (constant : Bool) (depth : Nat) :
    Keeps rel (literalWithin constant depth) := by
  induction depth with
  | zero => exact keeps_simpleLiteral
  | succ depth ih =>
      refine .bind keeps_position fun start => .bind keeps_kind fun kind => ?_
      split
      · exact keeps_variableLiteral constant
      · refine .bind keeps_advance fun _ => .bind (ih.itemsThrough _) fun items => ?_
        exact keeps_spanned start _
      · refine .bind keeps_advance fun _ => .bind (.itemsThrough ?_ _) fun fields => ?_
        · refine .bind keeps_name fun name => .bind (keeps_expectMark _) fun _ => ?_
          exact .bind ih fun value => .pure _
        · exact keeps_spanned start _
      · exact keeps_simpleLiteral

theorem keeps_literal (constant : Bool) : Keeps rel (literal constant) :=
  .bind keeps_depthBound (keeps_literalWithin constant)

theorem keeps_argument : Keeps rel argument := by
  refine .bind keeps_position fun start => .bind keeps_name fun name => ?_
  refine .bind (keeps_expectMark _) fun _ => .bind (keeps_literal _) fun value => ?_
  exact keeps_spanned start _

theorem keeps_arguments : Keeps rel arguments :=
  keeps_argument.optionalItems _ _

theorem keeps_directives : Keeps rel directives := by
  refine .repeatedItems (.bind keeps_position fun start => .bind keeps_advance fun _ => ?_) _
  refine .bind keeps_name fun name => .bind keeps_arguments fun arguments => ?_
  exact keeps_spanned start _

theorem keeps_defaultValue : Keeps rel defaultValue :=
  .bind (keeps_eatMark _) fun _ =>
    .ite (.bind (keeps_literal true) fun _ => .pure _) (.pure _)

theorem keeps_description? : Keeps rel description? := by
  refine .bind keeps_currentSpan fun span => .bind keeps_kind fun kind => .ite ?_ (.pure _)
  exact .bind keeps_currentText fun text => .bind keeps_advance fun _ => .pure _

theorem keeps_startWith (description : Option Description) : Keeps rel (startWith description) := by
  cases description with
  | none => exact keeps_position
  | some description => exact .pure _

theorem keeps_inputValueDefinition : Keeps rel inputValueDefinition := by
  refine .bind keeps_position fun start => .bind keeps_description? fun description => ?_
  refine .bind keeps_name fun name => .bind (keeps_expectMark _) fun _ => ?_
  refine .bind keeps_typeExpression fun type => .bind keeps_defaultValue fun default? => ?_
  exact .bind keeps_directives fun directives => keeps_spanned start _

theorem keeps_argumentDefinitions : Keeps rel argumentDefinitions :=
  keeps_inputValueDefinition.optionalItems _ _

theorem keeps_fieldDefinitions : Keeps rel fieldDefinitions := by
  refine .optionalItems (.bind keeps_position fun start => ?_) _ _
  refine .bind keeps_description? fun description => .bind keeps_name fun name => ?_
  refine .bind keeps_argumentDefinitions fun arguments => ?_
  refine .bind (keeps_expectMark _) fun _ => .bind keeps_typeExpression fun type => ?_
  exact .bind keeps_directives fun directives => keeps_spanned start _

theorem keeps_enumValueDefinition : Keeps rel enumValueDefinition := by
  refine .bind keeps_position fun start => .bind keeps_description? fun description => ?_
  refine .bind keeps_name fun name => .bind keeps_directives fun directives => ?_
  exact keeps_spanned start _

theorem keeps_implementedInterfaces : Keeps rel implementedInterfaces := by
  refine .bind (keeps_eat _) fun isThere => .ite ?_ (.pure _)
  exact .bind (keeps_eatMark _) fun _ => keeps_name.separatedItems _

theorem keeps_unionMembers : Keeps rel unionMembers := by
  refine .bind (keeps_eatMark _) fun isThere => .ite ?_ (.pure _)
  exact .bind (keeps_eatMark _) fun _ => keeps_name.separatedItems _

theorem keeps_typeBody (keyword : Keyword) : Keeps rel (typeBody keyword) := by
  have fields (body : List Name → List FieldDefinition → TypeBody) : Keeps rel (do
      let implements ← implementedInterfaces
      let directives ← directives
      return (directives, body implements (← fieldDefinitions))) := by
    refine .bind keeps_implementedInterfaces fun implements => ?_
    refine .bind keeps_directives fun directives => ?_
    exact .bind keeps_fieldDefinitions fun fields => .pure _
  simp only [typeBody]
  split
  · exact fields .interface
  · refine .bind keeps_directives fun directives => ?_
    exact .bind keeps_unionMembers fun members => .pure _
  · refine .bind keeps_directives fun directives => ?_
    exact .bind (keeps_enumValueDefinition.optionalItems _ _) fun values => .pure _
  · refine .bind keeps_directives fun directives => ?_
    exact .bind (keeps_inputValueDefinition.optionalItems _ _) fun fields => .pure _
  · exact .bind keeps_directives fun directives => .pure _
  · exact fields .object

theorem keeps_typeDefinition (keyword : Keyword) (description : Option Description) :
    Keeps rel (typeDefinition keyword description) := by
  refine .bind (keeps_startWith description) fun start => .bind keeps_advance fun _ => ?_
  refine .bind keeps_name fun name => .bind (keeps_typeBody keyword) fun body => ?_
  exact keeps_spanned start _

theorem keeps_rootOperation? : Keeps rel rootOperation? := by
  refine .bind keeps_position fun start => .bind keeps_kind fun kind => ?_
  split
  · refine .bind (keeps_reportCurrent _) fun _ => ?_
    exact .bind keeps_advance fun _ => .pure _
  · refine .bind keeps_advance fun _ => .bind (keeps_expectMark _) fun _ => ?_
    exact .bind keeps_name fun type => keeps_spanned start _

theorem keeps_schemaDefinition : Keeps rel schemaDefinition := by
  refine .bind keeps_position fun start => .bind keeps_advance fun _ => ?_
  refine .bind keeps_directives fun directives => .bind (keeps_expectMark _) fun _ => ?_
  refine .bind (keeps_rootOperation?.itemsThrough _) fun operations => ?_
  exact keeps_spanned start _

theorem keeps_directiveLocationsWithin (fuel : Nat) :
    Keeps rel (directiveLocationsWithin fuel) := by
  induction fuel with
  | zero => exact .pure _
  | succ fuel ih =>
      refine .bind keeps_currentText fun text => .bind keeps_kind fun kind => ?_
      split
      · refine .bind keeps_advance fun _ => .bind (keeps_eatMark _) fun continues => ?_
        exact .ite (.bind ih fun others => .pure _) (.pure _)
      · exact .bind (keeps_reportCurrent _) fun _ => .pure _

theorem keeps_directiveDefinition (description : Option Description) :
    Keeps rel (directiveDefinition description) := by
  refine .bind (keeps_startWith description) fun start => .bind keeps_advance fun _ => ?_
  refine .bind (keeps_expectMark _) fun _ => .bind keeps_name fun name => ?_
  refine .bind keeps_argumentDefinitions fun arguments => .bind (keeps_eat _) fun repeatable => ?_
  refine .bind (keeps_expect _) fun _ => .bind (keeps_eatMark _) fun _ => ?_
  refine .bind keeps_depthBound fun fuel => ?_
  refine .bind (keeps_directiveLocationsWithin fuel) fun locations => ?_
  exact keeps_spanned start _

theorem keeps_operationHead : Keeps rel operationHead := by
  refine .bind (keeps_isAt _) fun opens => .ite (.pure _) ?_
  refine .bind keeps_kind fun kind => .bind keeps_advance fun _ => ?_
  refine .bind keeps_kind fun following => .ite ?_ (.pure _)
  exact .bind keeps_name fun name => .pure _

theorem keeps_variableDefinition : Keeps rel variableDefinition := by
  refine .bind keeps_position fun start => .bind (keeps_expectMark _) fun _ => ?_
  refine .bind keeps_name fun name => .bind (keeps_expectMark _) fun _ => ?_
  refine .bind keeps_typeExpression fun type => .bind keeps_defaultValue fun default? => ?_
  exact .bind keeps_directives fun directives => keeps_spanned start _

section Selections

variable {inner : Parser SelectionSet}

/-- What follows the first name of a field. -/
theorem keeps_fieldAfter (keeps : Keeps rel inner) (start : Nat) (first : Name) : Keeps rel (do
    let (responseAlias, name) ←
      if ← eatMark .colon then pure (some first, ← name) else pure (none, first)
    let arguments ← arguments
    let directives ← directives
    let selections ←
      if ← isAt (.punctuator .openBrace) then pure (some (← inner)) else pure none
    return Selection.field { responseAlias, name, arguments, directives, span := ← spanFrom start }
      selections) := by
  have ending (responseAlias : Option Name) (name : Name) : Keeps rel (do
      let arguments ← arguments
      let directives ← directives
      let selections ←
        if ← isAt (.punctuator .openBrace) then pure (some (← inner)) else pure none
      return Selection.field { responseAlias, name, arguments, directives, span := ← spanFrom start }
        selections) := by
    refine .bind keeps_arguments fun arguments => .bind keeps_directives fun directives => ?_
    have finished (selections : Option SelectionSet) : Keeps rel (do
        return Selection.field { responseAlias, name, arguments, directives, span := ← spanFrom start }
          selections) := keeps_spanned start _
    refine .bind (keeps_isAt _) fun opens => .ite ?_ (finished none)
    exact .bind keeps fun selections => finished (some selections)
  refine .bind (keeps_eatMark _) fun renamed => .ite ?_ (ending none first)
  exact .bind keeps_name fun name => ending (some first) name

theorem keeps_fieldSelection (keeps : Keeps rel inner) : Keeps rel (fieldSelection inner) :=
  .bind keeps_position fun start => .bind keeps_name fun first => keeps_fieldAfter keeps start first

theorem keeps_spreadSelection (keeps : Keeps rel inner) (start : Nat) :
    Keeps rel (spreadSelection start inner) := by
  have inlineFragment (typeCondition : Option Name) : Keeps rel (do
      let directives ← directives
      let selections ← inner
      return Selection.inlineFragment { typeCondition, directives, span := ← spanFrom start }
        selections) :=
    .bind keeps_directives fun directives => .bind keeps fun selections => keeps_spanned start _
  refine .bind (keeps_eat _) fun conditioned => .ite ?_ ?_
  · exact .bind keeps_name fun condition => inlineFragment (some condition)
  · refine .bind (keeps_isAt _) fun opens => .bind (keeps_isAt _) fun directed => ?_
    refine .ite (inlineFragment none) (.bind keeps_name fun name => ?_)
    exact .bind keeps_directives fun directives => keeps_spanned start _

theorem keeps_selection (keeps : Keeps rel inner) : Keeps rel (selection inner) :=
  .bind keeps_position fun start => .bind (keeps_eatMark _) fun _ =>
    .ite (keeps_spreadSelection keeps start) (keeps_fieldSelection keeps)

end Selections

/-! ## Documents -/

section Documents

variable {rel : ParserState → Except SliceFault ParserState → Prop} [IsKeptByAll rel]

theorem keeps_takeSetId : Keeps rel takeSetId :=
  fun state => IsKeptByAll.number state

theorem keeps_selectionSetWithin (depth : Nat) : Keeps rel (selectionSetWithin depth) := by
  induction depth with
  | zero =>
      refine .bind keeps_position fun start => .bind keeps_takeSetId fun id => ?_
      exact keeps_spanned start _
  | succ depth ih =>
      refine .bind keeps_position fun start => .bind keeps_takeSetId fun id => ?_
      refine .bind (keeps_expect _) fun opens => .ite ?_ (keeps_spanned start _)
      exact .bind ((keeps_selection ih).itemsThrough _) fun items => keeps_spanned start _

theorem keeps_selectionSet : Keeps rel selectionSet :=
  .bind keeps_depthBound keeps_selectionSetWithin

theorem keeps_operation : Keeps rel operation := by
  refine .bind keeps_position fun start => .bind keeps_operationHead fun (kind, name) => ?_
  refine .bind (keeps_variableDefinition.optionalItems _ _) fun variableDefinitions => ?_
  refine .bind keeps_directives fun directives => .bind keeps_selectionSet fun selections => ?_
  exact keeps_spanned start _

theorem keeps_fragment : Keeps rel fragment := by
  refine .bind keeps_position fun start => .bind keeps_advance fun _ => ?_
  refine .bind keeps_name fun name => .bind (keeps_expect _) fun _ => ?_
  refine .bind keeps_name fun typeCondition => .bind keeps_directives fun directives => ?_
  exact .bind keeps_selectionSet fun selections => keeps_spanned start _

theorem keeps_definition? : Keeps rel definition? := by
  have found {γ : Type} {parser : Parser γ} (keeps : Keeps rel parser) (definition : γ → Definition) :
      Keeps rel (do return some (definition (← parser))) :=
    .bind keeps fun value => .pure _
  have nothing (title : String) :
      Keeps rel (do reportCurrent title; return (none : Option Definition)) :=
    .bind (keeps_reportCurrent title) fun _ => .pure _
  refine .bind keeps_description? fun description => .bind keeps_kind fun kind => ?_
  split
  · exact found keeps_schemaDefinition _
  · exact found (keeps_directiveDefinition description) _
  · exact found keeps_fragment _
  · exact found keeps_operation _
  · exact found keeps_operation _
  · exact found keeps_operation _
  · exact found keeps_operation _
  · exact found (keeps_typeDefinition _ description) _
  · exact found (keeps_typeDefinition _ description) _
  · exact found (keeps_typeDefinition _ description) _
  · exact found (keeps_typeDefinition _ description) _
  · exact found (keeps_typeDefinition _ description) _
  · exact found (keeps_typeDefinition _ description) _
  · exact nothing _
  · exact nothing _

theorem keeps_document : Keeps rel document := by
  have within (fuel : Nat) : Keeps rel (definitionsWithin fuel) := by
    induction fuel with
    | zero => exact .pure _
    | succ fuel ih =>
        refine .bind (keeps_isAt _) fun isAtEnd => .ite (.pure _) ?_
        exact .bind keeps_definition?.progressing fun first => .bind ih fun others => .pure _
  refine .bind keeps_position fun start => .bind keeps_depthBound fun fuel => ?_
  exact .bind (within fuel) fun definitions => keeps_spanned start _

end Documents

end Parser

end GraphQL

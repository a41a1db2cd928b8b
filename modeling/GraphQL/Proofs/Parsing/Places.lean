import GraphQL.Proofs.Parsing.Grammar
import GraphQL.Proofs.Parsing.Keeping
import GraphQL.Proofs.Token.Layout

/-!
# Parsing without places

Where a token stands decides nothing: the parser looks at kinds and texts of tokens and counts how
many are ahead, and places only end up in spans. So taking the places away before parsing gives what
taking them away afterwards gives, whatever errors or faults there are. The steps of parsers have
this property, and it passes on to everything put together from them.
-/

namespace GraphQL

/-! ## Documents without places

The numbers of selection sets stay, unlike in what is left of a document by its grammar.
-/

def Diagnostic.spanless (diagnostic : Diagnostic) : Diagnostic :=
  { diagnostic with labels := diagnostic.labels.map fun label => { label with span := ⟨0, 0⟩ } }

mutual

def Selection.spanless : Selection → Selection
  | .field head none => .field head.unplaced none
  | .field head (some selections) => .field head.unplaced (some selections.spanless)
  | .spread head => .spread head.unplaced
  | .inlineFragment head selections => .inlineFragment head.unplaced selections.spanless

def SelectionSet.spanless : SelectionSet → SelectionSet
  | ⟨id, items, _⟩ => ⟨id, Selection.listSpanless items, ⟨0, 0⟩⟩

def Selection.listSpanless : List Selection → List Selection
  | [] => []
  | selection :: rest => selection.spanless :: Selection.listSpanless rest

end

theorem Selection.listSpanless_eq (selections : List Selection) :
    listSpanless selections = selections.map spanless := by
  induction selections with
  | nil => rfl
  | cons selection selections ih => rw [listSpanless, ih, List.map_cons]

def OperationDefinition.spanless (definition : OperationDefinition) : OperationDefinition :=
  { kind := definition.kind
    name := definition.name.map Name.unplaced
    variableDefinitions := definition.variableDefinitions.map VariableDefinition.unplaced
    directives := definition.directives.map Directive.unplaced
    selections := definition.selections.spanless
    span := ⟨0, 0⟩ }

def FragmentDefinition.spanless (definition : FragmentDefinition) : FragmentDefinition :=
  { name := definition.name.unplaced
    typeCondition := definition.typeCondition.unplaced
    directives := definition.directives.map Directive.unplaced
    selections := definition.selections.spanless
    span := ⟨0, 0⟩ }

def Description.spanless (description : Description) : Description :=
  { description with span := ⟨0, 0⟩ }

def InputValueDefinition.spanless (definition : InputValueDefinition) : InputValueDefinition :=
  { description := definition.description.map Description.spanless
    name := definition.name.unplaced
    type := definition.type.unplaced
    default? := definition.default?.map Literal.unplaced
    directives := definition.directives.map Directive.unplaced
    span := ⟨0, 0⟩ }

def FieldDefinition.spanless (definition : FieldDefinition) : FieldDefinition :=
  { description := definition.description.map Description.spanless
    name := definition.name.unplaced
    arguments := definition.arguments.map InputValueDefinition.spanless
    type := definition.type.unplaced
    directives := definition.directives.map Directive.unplaced
    span := ⟨0, 0⟩ }

def EnumValueDefinition.spanless (definition : EnumValueDefinition) : EnumValueDefinition :=
  { description := definition.description.map Description.spanless
    name := definition.name.unplaced
    directives := definition.directives.map Directive.unplaced
    span := ⟨0, 0⟩ }

def TypeBody.spanless : TypeBody → TypeBody
  | object implements fields =>
      object (implements.map Name.unplaced) (fields.map FieldDefinition.spanless)
  | interface implements fields =>
      interface (implements.map Name.unplaced) (fields.map FieldDefinition.spanless)
  | union members => union (members.map Name.unplaced)
  | enum values => enum (values.map EnumValueDefinition.spanless)
  | input fields => input (fields.map InputValueDefinition.spanless)
  | scalar => scalar

def TypeDefinition.spanless (definition : TypeDefinition) : TypeDefinition :=
  { description := definition.description.map Description.spanless
    name := definition.name.unplaced
    directives := definition.directives.map Directive.unplaced
    body := definition.body.spanless
    span := ⟨0, 0⟩ }

def RootOperation.spanless (operation : RootOperation) : RootOperation :=
  { kind := operation.kind, type := operation.type.unplaced, span := ⟨0, 0⟩ }

def SchemaDefinition.spanless (definition : SchemaDefinition) : SchemaDefinition :=
  { directives := definition.directives.map Directive.unplaced
    operations := definition.operations.map RootOperation.spanless
    span := ⟨0, 0⟩ }

def DirectiveDefinition.spanless (definition : DirectiveDefinition) : DirectiveDefinition :=
  { description := definition.description.map Description.spanless
    name := definition.name.unplaced
    arguments := definition.arguments.map InputValueDefinition.spanless
    repeatable := definition.repeatable
    locations := definition.locations
    span := ⟨0, 0⟩ }

def Definition.spanless : Definition → Definition
  | schema definition => schema definition.spanless
  | type definition => type definition.spanless
  | directive definition => directive definition.spanless
  | operation definition => operation definition.spanless
  | fragment definition => fragment definition.spanless

def Document.spanless (document : Document) : Document :=
  { definitions := document.definitions.map Definition.spanless, span := ⟨0, 0⟩ }

/-- The document, the names and the findings of a source, all without places. -/
def ParsedDocument.spanless (parsed : ParsedDocument) : ParsedDocument :=
  { document := parsed.document.spanless
    interner := parsed.interner
    diagnostics := parsed.diagnostics.map Diagnostic.spanless }

def ParserState.spanless (state : ParserState) : ParserState :=
  { current := state.current.spanless
    upcoming := state.upcoming.map Token.spanless
    previousEnd := 0
    nextSetId := state.nextSetId
    interner := state.interner
    diagnostics := state.diagnostics.map Diagnostic.spanless }

namespace Parser

variable {α β γ δ : Type}

/-- A run of the second parser over tokens without places is a run of the first one over the tokens,
with the places taken away at its end. -/
def Forgets (forget : α → β) (parser : Parser α) (bare : Parser β) : Prop :=
  ∀ state : ParserState,
    bare state.spanless = (parser state).map (Prod.map forget ParserState.spanless)

variable {forget : α → β}

namespace Forgets

theorem pure {value : α} {bare : β} (same : forget value = bare) :
    Forgets forget (Pure.pure value) (Pure.pure bare) := by
  rintro state
  rw [← same]
  rfl

theorem bind {parser : Parser α} {bare : Parser β} {next : α → Parser γ} {bareNext : β → Parser δ}
    {forgetNext : γ → δ} (forgets : Forgets forget parser bare)
    (continues : ∀ value, Forgets forgetNext (next value) (bareNext (forget value))) :
    Forgets forgetNext (parser >>= next) (bare >>= bareNext) := by
  intro state
  simp only [Bind.bind, StateT.bind, Except.bind, forgets state]
  cases parser state with
  | error fault => rfl
  | ok step => exact continues step.1 step.2

/-- What has no places is the same in both runs. -/
theorem same {parser bare : Parser α} {next : α → Parser γ} {bareNext : α → Parser δ}
    {forgetNext : γ → δ} (forgets : Forgets id parser bare)
    (continues : ∀ value, Forgets forgetNext (next value) (bareNext value)) :
    Forgets forgetNext (parser >>= next) (bare >>= bareNext) :=
  forgets.bind continues

theorem ite {condition : Prop} [Decidable condition] {parser other : Parser α}
    {bare bareOther : Parser β} (forgets : Forgets forget parser bare)
    (otherForgets : Forgets forget other bareOther) :
    Forgets forget (if condition then parser else other)
      (if condition then bare else bareOther) := by
  split
  · exact forgets
  · exact otherForgets

theorem get : Forgets ParserState.spanless get get :=
  fun _ => rfl

theorem modify {change bareChange : ParserState → ParserState}
    (same : ∀ state, bareChange state.spanless = (change state).spanless) :
    Forgets id (modify change : Parser PUnit) (modify bareChange) := by
  intro state
  exact congrArg (fun after => Except.ok (PUnit.unit, after)) (same state)

end Forgets

/-! ## Steps -/

theorem forgets_kind : Forgets id kind kind :=
  .bind .get fun _ => .pure rfl

theorem forgets_currentSpan : Forgets (fun _ => Span.mk 0 0) currentSpan currentSpan :=
  .bind .get fun _ => .pure rfl

theorem forgets_position : Forgets (fun _ => 0) position position :=
  .bind .get fun _ => .pure rfl

theorem forgets_isAt (expected : TokenKind) : Forgets id (isAt expected) (isAt expected) :=
  .bind forgets_kind fun _ => .pure rfl

theorem forgets_isAtEndOf (closing : Punctuator) :
    Forgets id (isAtEndOf closing) (isAtEndOf closing) :=
  .bind forgets_kind fun _ => .pure rfl

theorem forgets_depthBound : Forgets id depthBound depthBound :=
  .bind .get fun state => .pure (by simp [ParserState.spanless])

theorem forgets_spanFrom (start : Nat) :
    Forgets (fun _ => Span.mk 0 0) (spanFrom start) (spanFrom 0) :=
  .bind .get fun _ => .pure rfl

theorem forgets_advance : Forgets id advance advance := by
  refine .modify fun state => ?_
  rcases state with ⟨current, _ | ⟨next, others⟩, previousEnd, nextSetId, interner, diagnostics⟩
  · rfl
  · rfl

theorem forgets_report {diagnostic bare : Diagnostic} (same : diagnostic.spanless = bare) :
    Forgets id (report diagnostic) (report bare) := by
  refine .modify fun state => ?_
  simp [ParserState.spanless, same]

theorem forgets_intern (name : String) : Forgets id (intern name) (intern name) :=
  .modify fun _ => rfl

theorem forgets_takeSetId : Forgets id takeSetId takeSetId :=
  fun _ => rfl

theorem forgets_eat (expected : TokenKind) : Forgets id (eat expected) (eat expected) :=
  .same (forgets_isAt expected) fun _ => .ite (.same forgets_advance fun _ => .pure rfl) (.pure rfl)

theorem forgets_eatMark (mark : Punctuator) : Forgets id (eatMark mark) (eatMark mark) :=
  forgets_eat _

theorem forgets_reportCurrent (title : String) :
    Forgets id (reportCurrent title) (reportCurrent title) :=
  .bind .get fun _ => forgets_report rfl

theorem forgets_reportExpected (expected : TokenKind) :
    Forgets id (reportExpected expected) (reportExpected expected) :=
  .bind .get fun _ => forgets_report rfl

theorem forgets_expect (expected : TokenKind) : Forgets id (expect expected) (expect expected) :=
  .same (forgets_eat expected) fun _ =>
    .ite (.pure rfl) (.same (forgets_reportExpected expected) fun _ => .pure rfl)

theorem forgets_expectMark (mark : Punctuator) : Forgets id (expectMark mark) (expectMark mark) :=
  .same (forgets_expect _) fun _ => .pure rfl

theorem forgets_currentText : Forgets id currentText currentText := by
  intro state
  have same : state.spanless.current.text? = state.current.text? := rfl
  rw [currentText_eq, currentText_eq, same]
  cases state.current.text? <;> rfl

theorem forgets_name : Forgets Name.unplaced name name := by
  have missing (span : Span) : Forgets Name.unplaced
      (do intern ""; return Name.mk "" span) (do intern ""; return Name.mk "" ⟨0, 0⟩) :=
    .same (forgets_intern _) fun _ => .pure rfl
  refine .bind .get fun state => .ite ?_ ?_
  · refine .same forgets_currentText fun text => .same (forgets_intern _) fun _ => ?_
    exact .same forgets_advance fun _ => .pure rfl
  · refine .same (forgets_reportCurrent _) fun _ => .ite ?_ (missing _)
    exact .same forgets_currentText fun _ => missing _

/-! ## Lists -/

section Lists

variable {item : Parser α} {bare : Parser β}

theorem ParserState.length_upcoming_spanless (state : ParserState) :
    state.spanless.upcoming.length = state.upcoming.length :=
  List.length_map _

theorem Forgets.progressing (forgets : Forgets forget item bare) :
    Forgets forget (progressing item) (progressing bare) := by
  refine .bind .get fun before => .bind forgets fun result => .bind .get fun after => ?_
  simp only [ParserState.length_upcoming_spanless]
  exact .ite (.same forgets_advance fun _ => .pure rfl) (.pure rfl)

theorem Forgets.itemsThrough (forgets : Forgets forget item bare) (closing : Punctuator) :
    Forgets (List.map forget) (itemsThrough closing item) (itemsThrough closing bare) := by
  have within (fuel : Nat) :
      Forgets (List.map forget) (itemsWithin closing item fuel) (itemsWithin closing bare fuel) := by
    induction fuel with
    | zero => exact .pure rfl
    | succ fuel ih =>
        refine .same (forgets_isAtEndOf closing) fun isAtEnd => .ite (.pure rfl) ?_
        exact .bind forgets.progressing fun first => .bind ih fun others => .pure rfl
  refine .bind (.bind .get fun state => ?_) fun items =>
    .same (forgets_expectMark closing) fun _ => .pure rfl
  rw [ParserState.length_upcoming_spanless]
  exact within _

theorem Forgets.optionalItems (forgets : Forgets forget item bare) (opening closing : Punctuator) :
    Forgets (List.map forget) (optionalItems opening closing item)
      (optionalItems opening closing bare) :=
  .same (forgets_eatMark opening) fun _ => .ite (forgets.itemsThrough closing) (.pure rfl)

theorem Forgets.separatedItems (forgets : Forgets forget item bare) (separator : Punctuator) :
    Forgets (List.map forget) (separatedItems separator item) (separatedItems separator bare) := by
  have further (fuel : Nat) : Forgets (List.map forget) (furtherItems separator item fuel)
      (furtherItems separator bare fuel) := by
    induction fuel with
    | zero => exact .pure rfl
    | succ fuel ih =>
        refine .same (forgets_eatMark separator) fun isThere => .ite ?_ (.pure rfl)
        exact .bind forgets fun first => .bind ih fun others => .pure rfl
  refine .bind forgets fun first => .bind .get fun state => ?_
  rw [ParserState.length_upcoming_spanless]
  exact .bind (further _) fun others => .pure rfl

theorem Forgets.repeatedItems (forgets : Forgets forget item bare) (leading : Punctuator) :
    Forgets (List.map forget) (repeatedItems leading item) (repeatedItems leading bare) := by
  have lead (fuel : Nat) : Forgets (List.map forget) (leadItems leading item fuel)
      (leadItems leading bare fuel) := by
    induction fuel with
    | zero => exact .pure rfl
    | succ fuel ih =>
        refine .same (forgets_isAt _) fun isThere => .ite ?_ (.pure rfl)
        exact .bind forgets fun first => .bind ih fun others => .pure rfl
  refine .bind .get fun state => ?_
  rw [ParserState.length_upcoming_spanless]
  exact lead _

end Lists

/-! ## Type expressions, literals and directives -/

theorem forgets_typeExpression :
    Forgets TypeExpression.unplaced typeExpression typeExpression := by
  have within (depth : Nat) : Forgets TypeExpression.unplaced (typeExpressionWithin depth)
      (typeExpressionWithin depth) := by
    induction depth with
    | zero => exact .bind forgets_name fun _ => .pure rfl
    | succ depth ih =>
        have marked (start : Nat) (type : TypeExpression) : Forgets TypeExpression.unplaced
            (do if ← eatMark .bang then return .nonNull type (← spanFrom start) else return type)
            (do if ← eatMark .bang then return .nonNull type.unplaced (← spanFrom 0)
                else return type.unplaced) :=
          .same (forgets_eatMark _) fun _ =>
            .ite (.bind (forgets_spanFrom start) fun _ => .pure rfl) (.pure rfl)
        refine .bind forgets_position fun start => .same (forgets_eatMark _) fun opens => .ite ?_ ?_
        · refine .bind ih fun item => .same (forgets_expectMark _) fun _ => ?_
          exact .bind (forgets_spanFrom start) fun span => marked start (.list item span)
        · exact .bind forgets_name fun name => marked start (.named name)
  exact .same forgets_depthBound within

theorem forgets_intLiteral : Forgets Literal.unplaced intLiteral intLiteral := by
  refine .same forgets_currentText fun text => .bind forgets_currentSpan fun span => ?_
  refine .same forgets_advance fun _ => .ite (.pure rfl) ?_
  exact .same (forgets_report rfl) fun _ => .pure rfl

theorem forgets_variableLiteral (constant : Bool) :
    Forgets Literal.unplaced (variableLiteral constant) (variableLiteral constant) := by
  refine .bind forgets_position fun start => .same forgets_advance fun _ => ?_
  refine .bind forgets_name fun name => .bind (forgets_spanFrom start) fun span => ?_
  exact .ite (.same (forgets_report rfl) fun _ => .pure rfl) (.pure rfl)

/-- A value that does not depend on the state. -/
theorem forgets_monadLift (value : Except SliceFault γ) :
    Forgets id (liftM value : Parser γ) (liftM value) := by
  intro state
  cases value <;> rfl

theorem forgets_simpleLiteral : Forgets Literal.unplaced simpleLiteral simpleLiteral := by
  have word {literal bare : Literal} (same : literal.unplaced = bare) :
      Forgets Literal.unplaced (do advance; return literal) (do advance; return bare) :=
    .same forgets_advance fun _ => .pure same
  refine .bind forgets_currentSpan fun span => .same forgets_kind fun kind => ?_
  split
  · exact forgets_intLiteral
  · exact .same forgets_currentText fun text => word rfl
  · exact .same forgets_currentText fun text => word rfl
  · refine .same forgets_currentText fun text => .same forgets_advance fun _ => ?_
    exact .same (forgets_monadLift _) fun value => .pure rfl
  · exact word rfl
  · exact word rfl
  · exact word rfl
  · exact .ite (.bind forgets_name fun name => .pure rfl)
      (.same (forgets_reportCurrent _) fun _ => .pure rfl)

theorem forgets_literal (constant : Bool) :
    Forgets Literal.unplaced (literal constant) (literal constant) := by
  have within (depth : Nat) : Forgets Literal.unplaced (literalWithin constant depth)
      (literalWithin constant depth) := by
    induction depth with
    | zero => exact forgets_simpleLiteral
    | succ depth ih =>
        refine .bind forgets_position fun start => .same forgets_kind fun kind => ?_
        split
        · exact forgets_variableLiteral constant
        · refine .same forgets_advance fun _ => .bind (ih.itemsThrough _) fun items => ?_
          refine .bind (forgets_spanFrom start) fun span => .pure ?_
          rw [Literal.unplaced, Literal.itemsUnplaced_eq]
        · have field : Forgets (fun field : Name × Literal => (field.1.unplaced, field.2.unplaced))
              (do
                let name ← name
                expectMark .colon
                return (name, ← literalWithin constant depth))
              (do
                let name ← name
                expectMark .colon
                return (name, ← literalWithin constant depth)) := by
            refine .bind forgets_name fun name => .same (forgets_expectMark _) fun _ => ?_
            exact .bind ih fun value => .pure rfl
          refine .same forgets_advance fun _ => .bind (field.itemsThrough _) fun fields => ?_
          refine .bind (forgets_spanFrom start) fun span => .pure ?_
          rw [Literal.unplaced, Literal.fieldsUnplaced_eq]
        · exact forgets_simpleLiteral
  exact .same forgets_depthBound within

theorem forgets_arguments : Forgets (List.map Argument.unplaced) arguments arguments := by
  refine .optionalItems (.bind forgets_position fun start => .bind forgets_name fun name => ?_) _ _
  refine .same (forgets_expectMark _) fun _ => .bind (forgets_literal _) fun value => ?_
  exact .bind (forgets_spanFrom start) fun span => .pure rfl

theorem forgets_directives : Forgets (List.map Directive.unplaced) directives directives := by
  refine .repeatedItems (.bind forgets_position fun start => .same forgets_advance fun _ => ?_) _
  refine .bind forgets_name fun name => .bind forgets_arguments fun arguments => ?_
  exact .bind (forgets_spanFrom start) fun span => .pure rfl

theorem forgets_defaultValue :
    Forgets (Option.map Literal.unplaced) defaultValue defaultValue :=
  .same (forgets_eatMark _) fun _ =>
    .ite (.bind (forgets_literal true) fun _ => .pure rfl) (.pure rfl)

/-! ## Type system definitions -/

theorem forgets_description? :
    Forgets (Option.map Description.spanless) description? description? := by
  refine .bind forgets_currentSpan fun span => .same forgets_kind fun kind => .ite ?_ (.pure rfl)
  exact .same forgets_currentText fun text => .same forgets_advance fun _ => .pure rfl

theorem forgets_startWith (description : Option Description) :
    Forgets (fun _ => 0) (startWith description)
      (startWith (description.map Description.spanless)) := by
  cases description with
  | none => exact forgets_position
  | some description => exact .pure rfl

theorem forgets_inputValueDefinition :
    Forgets InputValueDefinition.spanless inputValueDefinition inputValueDefinition := by
  refine .bind forgets_position fun start => .bind forgets_description? fun description => ?_
  refine .bind forgets_name fun name => .same (forgets_expectMark _) fun _ => ?_
  refine .bind forgets_typeExpression fun type => .bind forgets_defaultValue fun default? => ?_
  refine .bind forgets_directives fun directives => ?_
  exact .bind (forgets_spanFrom start) fun span => .pure rfl

theorem forgets_argumentDefinitions :
    Forgets (List.map InputValueDefinition.spanless) argumentDefinitions argumentDefinitions :=
  forgets_inputValueDefinition.optionalItems _ _

theorem forgets_fieldDefinitions :
    Forgets (List.map FieldDefinition.spanless) fieldDefinitions fieldDefinitions := by
  refine .optionalItems (.bind forgets_position fun start => ?_) _ _
  refine .bind forgets_description? fun description => .bind forgets_name fun name => ?_
  refine .bind forgets_argumentDefinitions fun arguments => ?_
  refine .same (forgets_expectMark _) fun _ => .bind forgets_typeExpression fun type => ?_
  refine .bind forgets_directives fun directives => ?_
  exact .bind (forgets_spanFrom start) fun span => .pure rfl

theorem forgets_enumValueDefinition :
    Forgets EnumValueDefinition.spanless enumValueDefinition enumValueDefinition := by
  refine .bind forgets_position fun start => .bind forgets_description? fun description => ?_
  refine .bind forgets_name fun name => .bind forgets_directives fun directives => ?_
  exact .bind (forgets_spanFrom start) fun span => .pure rfl

theorem forgets_implementedInterfaces :
    Forgets (List.map Name.unplaced) implementedInterfaces implementedInterfaces := by
  refine .same (forgets_eat _) fun isThere => .ite ?_ (.pure rfl)
  exact .same (forgets_eatMark _) fun _ => forgets_name.separatedItems _

theorem forgets_unionMembers :
    Forgets (List.map Name.unplaced) unionMembers unionMembers := by
  refine .same (forgets_eatMark _) fun isThere => .ite ?_ (.pure rfl)
  exact .same (forgets_eatMark _) fun _ => forgets_name.separatedItems _

theorem forgets_typeBody (keyword : Keyword) :
    Forgets (Prod.map (List.map Directive.unplaced) TypeBody.spanless) (typeBody keyword)
      (typeBody keyword) := by
  have fields {body : List Name → List FieldDefinition → TypeBody}
      (same : ∀ implements fields, (body implements fields).spanless =
        body (implements.map Name.unplaced) (fields.map FieldDefinition.spanless)) :
      Forgets (Prod.map (List.map Directive.unplaced) TypeBody.spanless)
        (do
          let implements ← implementedInterfaces
          let directives ← directives
          return (directives, body implements (← fieldDefinitions)))
        (do
          let implements ← implementedInterfaces
          let directives ← directives
          return (directives, body implements (← fieldDefinitions))) := by
    refine .bind forgets_implementedInterfaces fun implements => ?_
    refine .bind forgets_directives fun directives => ?_
    exact .bind forgets_fieldDefinitions fun fields => .pure (by rw [Prod.map, same])
  simp only [typeBody]
  split
  · exact fields fun _ _ => rfl
  · refine .bind forgets_directives fun directives => ?_
    exact .bind forgets_unionMembers fun members => .pure rfl
  · refine .bind forgets_directives fun directives => ?_
    exact .bind (forgets_enumValueDefinition.optionalItems _ _) fun values => .pure rfl
  · refine .bind forgets_directives fun directives => ?_
    exact .bind (forgets_inputValueDefinition.optionalItems _ _) fun fields => .pure rfl
  · exact .bind forgets_directives fun directives => .pure rfl
  · exact fields fun _ _ => rfl

theorem forgets_typeDefinition (keyword : Keyword) (description : Option Description) :
    Forgets TypeDefinition.spanless (typeDefinition keyword description)
      (typeDefinition keyword (description.map Description.spanless)) := by
  refine .bind (forgets_startWith description) fun start => .same forgets_advance fun _ => ?_
  refine .bind forgets_name fun name => .bind (forgets_typeBody keyword) fun body => ?_
  exact .bind (forgets_spanFrom start) fun span => .pure rfl

theorem forgets_rootOperation? :
    Forgets (Option.map RootOperation.spanless) rootOperation? rootOperation? := by
  refine .bind forgets_position fun start => .same forgets_kind fun kind => ?_
  split
  · refine .same (forgets_reportCurrent _) fun _ => ?_
    exact .same forgets_advance fun _ => .pure rfl
  · refine .same forgets_advance fun _ => .same (forgets_expectMark _) fun _ => ?_
    refine .bind forgets_name fun type => ?_
    exact .bind (forgets_spanFrom start) fun span => .pure rfl

theorem forgets_schemaDefinition :
    Forgets SchemaDefinition.spanless schemaDefinition schemaDefinition := by
  refine .bind forgets_position fun start => .same forgets_advance fun _ => ?_
  refine .bind forgets_directives fun directives => .same (forgets_expectMark _) fun _ => ?_
  refine .bind (forgets_rootOperation?.itemsThrough _) fun operations => ?_
  refine .bind (forgets_spanFrom start) fun span => .pure ?_
  simp [SchemaDefinition.spanless, List.map_filterMap, List.filterMap_map]

theorem forgets_directiveLocationsWithin (fuel : Nat) :
    Forgets id (directiveLocationsWithin fuel) (directiveLocationsWithin fuel) := by
  induction fuel with
  | zero => exact .pure rfl
  | succ fuel ih =>
      refine .same forgets_currentText fun text => .same forgets_kind fun kind => ?_
      split
      · refine .same forgets_advance fun _ => .same (forgets_eatMark _) fun continues => ?_
        exact .ite (.same ih fun others => .pure rfl) (.pure rfl)
      · exact .same (forgets_reportCurrent _) fun _ => .pure rfl

theorem forgets_directiveDefinition (description : Option Description) :
    Forgets DirectiveDefinition.spanless (directiveDefinition description)
      (directiveDefinition (description.map Description.spanless)) := by
  refine .bind (forgets_startWith description) fun start => .same forgets_advance fun _ => ?_
  refine .same (forgets_expectMark _) fun _ => .bind forgets_name fun name => ?_
  refine .bind forgets_argumentDefinitions fun arguments => ?_
  refine .same (forgets_eat _) fun repeatable => .same (forgets_expect _) fun _ => ?_
  refine .same (forgets_eatMark _) fun _ => .same forgets_depthBound fun fuel => ?_
  refine .same (forgets_directiveLocationsWithin fuel) fun locations => ?_
  exact .bind (forgets_spanFrom start) fun span => .pure rfl

/-! ## Operations and fragments -/

theorem forgets_operationHead :
    Forgets (Prod.map id (Option.map Name.unplaced)) operationHead operationHead := by
  refine .same (forgets_isAt _) fun opens => .ite (.pure rfl) ?_
  refine .same forgets_kind fun kind => .same forgets_advance fun _ => ?_
  refine .same forgets_kind fun following => .ite ?_ (.pure rfl)
  exact .bind forgets_name fun name => .pure rfl

theorem forgets_variableDefinition :
    Forgets VariableDefinition.unplaced variableDefinition variableDefinition := by
  refine .bind forgets_position fun start => .same (forgets_expectMark _) fun _ => ?_
  refine .bind forgets_name fun name => .same (forgets_expectMark _) fun _ => ?_
  refine .bind forgets_typeExpression fun type => .bind forgets_defaultValue fun default? => ?_
  refine .bind forgets_directives fun directives => ?_
  exact .bind (forgets_spanFrom start) fun span => .pure rfl

section Selections

variable {inner : Parser SelectionSet}

theorem forgets_fieldSelection (forgets : Forgets SelectionSet.spanless inner inner) :
    Forgets Selection.spanless (fieldSelection inner) (fieldSelection inner) := by
  refine .bind forgets_position fun start => .bind forgets_name fun first => ?_
  have ending (responseAlias : Option Name) (name : Name) : Forgets Selection.spanless
      (do
        let arguments ← arguments
        let directives ← directives
        let selections ←
          if ← isAt (.punctuator .openBrace) then pure (some (← inner)) else pure none
        return Selection.field
          { responseAlias, name, arguments, directives, span := ← spanFrom start } selections)
      (do
        let arguments ← arguments
        let directives ← directives
        let selections ←
          if ← isAt (.punctuator .openBrace) then pure (some (← inner)) else pure none
        return Selection.field
          { responseAlias := responseAlias.map Name.unplaced, name := name.unplaced, arguments
            directives, span := ← spanFrom 0 } selections) := by
    refine .bind forgets_arguments fun arguments => .bind forgets_directives fun directives => ?_
    have finished (selections : Option SelectionSet) : Forgets Selection.spanless
        (do
          return Selection.field
            { responseAlias, name, arguments, directives, span := ← spanFrom start } selections)
        (do
          return Selection.field
            { responseAlias := responseAlias.map Name.unplaced, name := name.unplaced
              arguments := arguments.map Argument.unplaced
              directives := directives.map Directive.unplaced, span := ← spanFrom 0 }
            (selections.map SelectionSet.spanless)) :=
      .bind (forgets_spanFrom start) fun span => .pure (by cases selections <;> rfl)
    refine .same (forgets_isAt _) fun opens => .ite ?_ (finished none)
    exact .bind forgets fun selections => finished (some selections)
  refine .same (forgets_eatMark _) fun renamed => .ite ?_ (ending none first)
  exact .bind forgets_name fun name => ending (some first) name

theorem forgets_spreadSelection (forgets : Forgets SelectionSet.spanless inner inner)
    (start : Nat) :
    Forgets Selection.spanless (spreadSelection start inner) (spreadSelection 0 inner) := by
  have inlineFragment (typeCondition : Option Name) : Forgets Selection.spanless
      (do
        let directives ← directives
        let selections ← inner
        return Selection.inlineFragment { typeCondition, directives, span := ← spanFrom start }
          selections)
      (do
        let directives ← directives
        let selections ← inner
        return Selection.inlineFragment
          { typeCondition := typeCondition.map Name.unplaced, directives, span := ← spanFrom 0 }
          selections) := by
    refine .bind forgets_directives fun directives => .bind forgets fun selections => ?_
    exact .bind (forgets_spanFrom start) fun span => .pure rfl
  refine .same (forgets_eat _) fun conditioned => .ite ?_ ?_
  · exact .bind forgets_name fun condition => inlineFragment (some condition)
  · refine .same (forgets_isAt _) fun opens => .same (forgets_isAt _) fun directed => ?_
    refine .ite (inlineFragment none) (.bind forgets_name fun name => ?_)
    refine .bind forgets_directives fun directives => ?_
    exact .bind (forgets_spanFrom start) fun span => .pure rfl

theorem forgets_selection (forgets : Forgets SelectionSet.spanless inner inner) :
    Forgets Selection.spanless (selection inner) (selection inner) :=
  .bind forgets_position fun start => .same (forgets_eatMark _) fun _ =>
    .ite (forgets_spreadSelection forgets start) (forgets_fieldSelection forgets)

end Selections

theorem forgets_selectionSet : Forgets SelectionSet.spanless selectionSet selectionSet := by
  have within (depth : Nat) : Forgets SelectionSet.spanless (selectionSetWithin depth)
      (selectionSetWithin depth) := by
    induction depth with
    | zero =>
        refine .bind forgets_position fun start => .same forgets_takeSetId fun id => ?_
        exact .bind (forgets_spanFrom start) fun span => .pure rfl
    | succ depth ih =>
        refine .bind forgets_position fun start => .same forgets_takeSetId fun id => ?_
        have finished (items : List Selection) : Forgets SelectionSet.spanless
            (do return { id, items, span := ← spanFrom start })
            (do return { id, items := items.map Selection.spanless, span := ← spanFrom 0 }) := by
          refine .bind (forgets_spanFrom start) fun span => .pure ?_
          rw [SelectionSet.spanless, Selection.listSpanless_eq]
        refine .same (forgets_expect _) fun opens => .ite ?_ (finished [])
        exact .bind ((forgets_selection ih).itemsThrough _) finished
  exact .same forgets_depthBound within

theorem forgets_operation : Forgets OperationDefinition.spanless operation operation := by
  refine .bind forgets_position fun start => .bind forgets_operationHead fun (kind, name) => ?_
  refine .bind (forgets_variableDefinition.optionalItems _ _) fun variableDefinitions => ?_
  refine .bind forgets_directives fun directives => .bind forgets_selectionSet fun selections => ?_
  exact .bind (forgets_spanFrom start) fun span => .pure rfl

theorem forgets_fragment : Forgets FragmentDefinition.spanless fragment fragment := by
  refine .bind forgets_position fun start => .same forgets_advance fun _ => ?_
  refine .bind forgets_name fun name => .same (forgets_expect _) fun _ => ?_
  refine .bind forgets_name fun typeCondition => .bind forgets_directives fun directives => ?_
  refine .bind forgets_selectionSet fun selections => ?_
  exact .bind (forgets_spanFrom start) fun span => .pure rfl

/-! ## Documents -/

theorem forgets_definition? :
    Forgets (Option.map Definition.spanless) definition? definition? := by
  have found {γ : Type} {parser bare : Parser γ} {forget : γ → γ}
      (forgets : Forgets forget parser bare) (definition : γ → Definition)
      (same : ∀ value, (definition value).spanless = definition (forget value)) :
      Forgets (Option.map Definition.spanless) (do return some (definition (← parser)))
        (do return some (definition (← bare))) :=
    .bind forgets fun value => .pure (congrArg some (same value))
  have nothing (title : String) : Forgets (Option.map Definition.spanless)
      (do reportCurrent title; return none) (do reportCurrent title; return none) :=
    .same (forgets_reportCurrent title) fun _ => .pure rfl
  have typed (keyword : Keyword) (description : Option Description) :=
    found (forgets_typeDefinition keyword description) .type fun _ => rfl
  have executable := found forgets_operation .operation fun _ => rfl
  refine .bind forgets_description? fun description => .same forgets_kind fun kind => ?_
  split
  · exact found forgets_schemaDefinition .schema fun _ => rfl
  · exact found (forgets_directiveDefinition description) .directive fun _ => rfl
  · exact found forgets_fragment .fragment fun _ => rfl
  · exact executable
  · exact executable
  · exact executable
  · exact executable
  · exact typed _ description
  · exact typed _ description
  · exact typed _ description
  · exact typed _ description
  · exact typed _ description
  · exact typed _ description
  · exact nothing _
  · exact nothing _

theorem forgets_document : Forgets Document.spanless document document := by
  have within (fuel : Nat) : Forgets (List.map Definition.spanless) (definitionsWithin fuel)
      (definitionsWithin fuel) := by
    induction fuel with
    | zero => exact .pure rfl
    | succ fuel ih =>
        refine .same (forgets_isAt _) fun isAtEnd => .ite (.pure rfl) ?_
        refine .bind forgets_definition?.progressing fun first => .bind ih fun others => .pure ?_
        cases first <;> rfl
  refine .bind forgets_position fun start => .same forgets_depthBound fun fuel => ?_
  refine .bind (within fuel) fun definitions => ?_
  exact .bind (forgets_spanFrom start) fun span => .pure rfl

theorem start_spanless (tokens : List Token) :
    start (tokens.map Token.spanless) = (start tokens).spanless := by
  cases tokens <;> rfl

end Parser

/-- Reading tokens without their places gives what reading them gives, without its places. -/
theorem Document.ofTokens_spanless (tokens : List Token) :
    Document.ofTokens (tokens.map Token.spanless) =
      (Document.ofTokens tokens).map ParsedDocument.spanless := by
  simp only [Document.ofTokens, Parser.start_spanless, Parser.forgets_document (Parser.start tokens)]
  cases Parser.document (Parser.start tokens) <;> rfl

end GraphQL

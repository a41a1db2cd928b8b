import GraphQL.Proofs.Parsing.Mirrors

/-!
# Parsing makes progress

However malformed a document is, the parser without bounds ends where the tokens end, unless the
text of a token cannot be cut out of the source, and the bounds of the parser that reads documents
are never met. Each production mirrors its namesake: by induction on the bound where it is recursive,
as a literal in a list or a selection set in a field comes after a token that opens it, and from its
parts where it is not. At the end each token has been consumed once, and a token is only skipped
after an error.
-/

namespace GraphQL
namespace Parser

open Unbounded (Deed Ledger FreeRun)

variable {α : Type} {most : Nat}

/-! ## Type expressions, literals and directives -/

theorem mirrors_spanFrom {pre : List Token → Prop} (start : Nat) :
    Mirrors pre (liftM (spanFrom start)) (spanFrom start) fun _ => pre :=
  mirrors_quiet (isQuiet_looks (looks_spanFrom start))

/-- A value with the span of what has been read. -/
theorem mirrors_spanned {pre : List Token → Prop} (start : Nat) (value : Span → α) :
    Mirrors pre (do return value (← spanFrom start)) (do return value (← spanFrom start))
      fun _ => pre :=
  .bind (mirrors_spanFrom start) fun _ => .pure fun _ holds => holds

theorem mirrors_typeExpression :
    Mirrors (Within most) Unbounded.typeExpression typeExpression fun _ => Within most := by
  have marked (count start : Nat) (type : TypeExpression) : Mirrors (Within count)
      (do
        if ← Unbounded.eatMark .bang then return .nonNull type (← spanFrom start)
        else return type)
      (do if ← eatMark .bang then return .nonNull type (← spanFrom start) else return type)
      fun _ => Within count := by
    refine .bind (mirrors_eatMark _) fun eaten => .ite_eaten ?_ (.pure fun _ within => within)
    exact .below_within fun _ _ => mirrors_spanned start _
  refine .of_depthBound fun fewer less depth enough => .imp ?_ fun _ _ => Within.mono less
  refine .recursive_within (fun fewest _ depth inner nested => ?_) enough
  refine .ahead_within fun before atMost => .pass looks_position fun start => ?_
  refine .bind (mirrors_eatMark _) fun opens => .ite_eaten ?_ ?_
  · refine .below_within fun count below => .descend below ?_
    refine .bind (nested count (by omega)) fun item => .bind (mirrors_expectMark _) fun _ => ?_
    exact .bind (mirrors_spanFrom start) fun span => marked count start (.list item span)
  · exact .bind mirrors_name fun name => marked before start (.named name)

theorem mirrors_currentText {pre : List Token → Prop} :
    Mirrors pre (liftM currentText) currentText fun _ => pre :=
  mirrors_quiet isQuiet_currentText

theorem mirrors_report {pre : List Token → Prop} {diagnostic : Diagnostic}
    (isError : diagnostic.isError = true) :
    Mirrors pre (liftM (report diagnostic)) (report diagnostic) fun _ => pre :=
  mirrors_quiet (isQuiet_report isError)

theorem mirrors_reportCurrent {pre : List Token → Prop} (title : String) :
    Mirrors pre (liftM (reportCurrent title)) (reportCurrent title) fun _ => pre :=
  mirrors_quiet (isQuiet_reportCurrent title)

theorem mirrors_intLiteral :
    Mirrors (Inside most) Unbounded.intLiteral intLiteral fun _ => Within most := by
  refine .bind mirrors_currentText fun text => .pass looks_currentSpan fun span => ?_
  refine .bind mirrors_advance fun _ => .below_within fun fewer less => ?_
  refine .ite (fun _ => .pure fun _ within => within) fun _ => ?_
  exact .bind (mirrors_report rfl) fun _ => .pure fun _ within => within

theorem mirrors_variableLiteral (constant : Bool) :
    Mirrors (Inside most) (Unbounded.variableLiteral constant) (variableLiteral constant)
      fun _ => Within most := by
  refine .pass looks_position fun start => .bind mirrors_advance fun _ => ?_
  refine .below_within fun fewer less => .bind mirrors_name fun name => ?_
  refine .bind (mirrors_spanFrom start) fun span => .ite (fun _ => ?_) fun _ => ?_
  · exact .bind (mirrors_report rfl) fun _ => .pure fun _ within => within
  · exact .pure fun _ within => within

/-- The kind that has been seen is not that of the mark of the end. -/
theorem Mirrors.at_kind {kind : TokenKind} {run : FreeRun α} {parser : Parser α}
    {post : α → List Token → Prop} (inside : kind ≠ .endOfInput)
    (mirrors : Mirrors (Inside most) run parser post) :
    Mirrors (fun tokens => Within most tokens ∧ kind = Token.headKind tokens) run parser post :=
  mirrors.weaken fun _ holds => inside_of_headKind holds.1 (holds.2 ▸ inside)

theorem mirrors_simpleLiteral :
    Mirrors (Within most) Unbounded.simpleLiteral simpleLiteral fun _ => Within most := by
  have word (literal : Literal) : Mirrors (Inside most)
      (do Unbounded.advance; return literal) (do advance; return literal) fun _ => Within most :=
    .bind mirrors_advance fun _ => .below_within fun _ _ => .pure fun _ within => within
  have text (literal : String → Literal) : Mirrors (Inside most)
      (do let text ← currentText; Unbounded.advance; return literal text)
      (do let text ← currentText; advance; return literal text) fun _ => Within most :=
    .bind mirrors_currentText fun text => word (literal text)
  refine .pass looks_currentSpan fun span => .look looks_kind fun kind => ?_
  have other : Mirrors (fun tokens => Within most tokens ∧ kind = Token.headKind tokens)
      (do
        if kind.isName then return .enum (← Unbounded.name)
        else
          reportCurrent "Expected a value"
          return Literal.null span)
      (do
        if kind.isName then return .enum (← name)
        else
          reportCurrent "Expected a value"
          return Literal.null span) fun _ => Within most := by
    refine .weaken (.ite (fun _ => ?_) fun _ => ?_) fun _ holds => holds.1
    · exact .bind mirrors_name fun name => .pure fun _ within => within
    · exact .bind (mirrors_reportCurrent _) fun _ => .pure fun _ within => within
  cases kind with
  | int => exact .at_kind (by simp) mirrors_intLiteral
  | float => exact .at_kind (by simp) (text _)
  | string => exact .at_kind (by simp) (text _)
  | blockString =>
      refine .at_kind (by simp) (.bind mirrors_currentText fun text => ?_)
      refine .bind mirrors_advance fun _ => .below_within fun fewer less => ?_
      exact .bind (mirrors_quiet (isQuiet_liftM _)) fun value => .pure fun _ within => within
  | keyword keyword =>
      cases keyword with
      | trueValue => exact .at_kind (by simp) (word _)
      | falseValue => exact .at_kind (by simp) (word _)
      | nullValue => exact .at_kind (by simp) (word _)
      | _ => exact other
  | _ => exact other

theorem mirrors_literalField {run : FreeRun Literal} {inner : Parser Literal}
    (mirrors : Mirrors (Within most) run inner fun _ => Within most) :
    Mirrors (Within most) (Unbounded.literalField run) (do
      let name ← name
      expectMark .colon
      return (name, ← inner)) fun _ => Within most := by
  refine .bind mirrors_name fun name => .bind (mirrors_expectMark _) fun _ => ?_
  exact .bind mirrors fun value => .pure fun _ within => within

/-- The depth bound is never met: a literal inside a literal comes after its opening token. -/
theorem mirrors_literal (constant : Bool) :
    Mirrors (Within most) (Unbounded.literal constant) (literal constant) fun _ => Within most := by
  refine .of_depthBound fun fewer less depth enough => .imp ?_ fun _ _ => Within.mono less
  refine .recursive_within (fun fewest _ depth inner nested => ?_) enough
  refine .ahead_within fun before atMost => .pass looks_position fun start => ?_
  refine .look looks_kind fun kind => ?_
  have plain : Mirrors (fun tokens => Within before tokens ∧ kind = Token.headKind tokens)
      Unbounded.simpleLiteral simpleLiteral fun _ => Within before :=
    mirrors_simpleLiteral.weaken fun _ holds => holds.1
  cases kind with
  | punctuator mark =>
      cases mark with
      | dollar => exact .at_kind (by simp) (mirrors_variableLiteral constant)
      | openBracket =>
          refine .at_kind (by simp) (.bind mirrors_advance fun _ => ?_)
          refine .below_within fun count below => .descend below ?_
          have item := nested count (by omega)
          refine .bind (item.itemsThrough (advances_literalWithin constant depth) _) fun items => ?_
          exact mirrors_spanned start _
      | openBrace =>
          refine .at_kind (by simp) (.bind mirrors_advance fun _ => ?_)
          refine .below_within fun count below => .descend below ?_
          have field := mirrors_literalField (nested count (by omega))
          have advances := advances_literalField (keeps_literalWithin constant depth)
          exact .bind (field.itemsThrough advances _) fun fields => mirrors_spanned start _
      | _ => exact plain
  | _ => exact plain

theorem mirrors_argument :
    Mirrors (Within most) Unbounded.argument argument fun _ => Within most := by
  refine .pass looks_position fun start => .bind mirrors_name fun name => ?_
  refine .bind (mirrors_expectMark _) fun _ => .bind (mirrors_literal false) fun value => ?_
  exact mirrors_spanned start _

theorem mirrors_arguments :
    Mirrors (Within most) Unbounded.arguments arguments fun _ => Within most :=
  mirrors_argument.optionalItems advances_argument _ _

theorem mirrors_directives :
    Mirrors (Within most) Unbounded.directives directives fun _ => Within most := by
  refine mirrors_repeatedItems fun most => ?_
  refine .pass looks_position fun start => .bind mirrors_advance fun _ => ?_
  refine .below fun fewer less => .bind mirrors_name fun name => ?_
  refine .bind mirrors_arguments fun arguments => ?_
  exact (mirrors_spanned start _).imp fun _ _ within => Nat.lt_of_le_of_lt within less

theorem mirrors_defaultValue :
    Mirrors (Within most) Unbounded.defaultValue defaultValue fun _ => Within most := by
  refine .bind (mirrors_eatMark _) fun eaten => .ite_eaten ?_ (.pure fun _ within => within)
  refine .below_within fun fewer less => .bind (mirrors_literal true) fun value => ?_
  exact .pure fun _ within => within

/-! ## Operations and fragments -/

theorem mirrors_takeSetId {pre : List Token → Prop} :
    Mirrors pre (liftM takeSetId) takeSetId fun _ => pre :=
  mirrors_quiet isQuiet_takeSetId

section Selections

variable {run : FreeRun SelectionSet} {inner : Parser SelectionSet}
  (mirrors : Mirrors (Within most) run inner fun _ => Within most)

include mirrors

theorem mirrors_fieldSelection :
    Mirrors (Within most) (Unbounded.fieldSelection run) (fieldSelection inner)
      fun _ => Within most := by
  have ending (start : Nat) (responseAlias : Option Name) (name : Name) : Mirrors (Within most)
      (do
        let arguments ← Unbounded.arguments
        let directives ← Unbounded.directives
        let selections ←
          if ← isAt (.punctuator .openBrace) then pure (some (← run))
          else pure none
        return Selection.field
          { responseAlias, name, arguments, directives, span := ← spanFrom start } selections)
      (do
        let arguments ← arguments
        let directives ← directives
        let selections ←
          if ← isAt (.punctuator .openBrace) then pure (some (← inner)) else pure none
        return Selection.field
          { responseAlias, name, arguments, directives, span := ← spanFrom start } selections)
      fun _ => Within most := by
    refine .bind mirrors_arguments fun arguments => .bind mirrors_directives fun directives => ?_
    have finished (selections : Option SelectionSet) : Mirrors (Within most)
        (do
          return Selection.field
            { responseAlias, name, arguments, directives, span := ← spanFrom start } selections)
        (do
          return Selection.field
            { responseAlias, name, arguments, directives, span := ← spanFrom start } selections)
        fun _ => Within most := mirrors_spanned start _
    refine .pass (looks_isAt _) fun opens => .ite (fun _ => ?_) fun _ => finished none
    exact .bind mirrors fun selections => finished (some selections)
  refine .pass looks_position fun start => .bind mirrors_name fun first => ?_
  refine .bind (mirrors_eatMark _) fun renamed => .ite_eaten ?_ (ending start none first)
  refine .weaken (.bind mirrors_name fun name => ending start (some first) name) ?_
  exact fun _ below => Nat.le_of_lt below

theorem mirrors_spreadSelection (start : Nat) :
    Mirrors (Within most) (Unbounded.spreadSelection start run) (spreadSelection start inner)
      fun _ => Within most := by
  have inlineFragment (typeCondition : Option Name) : Mirrors (Within most)
      (do
        let directives ← Unbounded.directives
        let selections ← run
        return Selection.inlineFragment { typeCondition, directives, span := ← spanFrom start }
          selections)
      (do
        let directives ← directives
        let selections ← inner
        return Selection.inlineFragment { typeCondition, directives, span := ← spanFrom start }
          selections)
      fun _ => Within most :=
    .bind mirrors_directives fun directives => .bind mirrors fun selections =>
      mirrors_spanned start _
  refine .bind (mirrors_eat (by simp)) fun conditioned => .ite_eaten ?_ ?_
  · refine .weaken (.bind mirrors_name fun condition => inlineFragment (some condition)) ?_
    exact fun _ below => Nat.le_of_lt below
  · refine .pass (looks_isAt _) fun opens => .pass (looks_isAt _) fun directed => ?_
    refine .ite (fun _ => inlineFragment none) fun _ => .bind mirrors_name fun name => ?_
    exact .bind mirrors_directives fun directives => mirrors_spanned start _

theorem mirrors_selection :
    Mirrors (Within most) (Unbounded.selection run) (selection inner) fun _ => Within most := by
  refine .pass looks_position fun start => .bind (mirrors_eatMark _) fun spreads => ?_
  refine .ite_eaten ?_ (mirrors_fieldSelection mirrors)
  exact (mirrors_spreadSelection mirrors start).weaken fun _ below => Nat.le_of_lt below

end Selections

/-- The depth bound is never met: a selection set inside another comes after its opening brace. -/
theorem mirrors_selectionSet :
    Mirrors (Within most) Unbounded.selectionSet selectionSet fun _ => Within most := by
  refine .of_depthBound fun fewer less depth enough => .imp ?_ fun _ _ => Within.mono less
  refine .recursive_within (fun fewest _ depth inner nested => ?_) enough
  refine .ahead_within fun before atMost => .pass looks_position fun start => ?_
  refine .bind mirrors_takeSetId fun id => .bind (mirrors_expect (by simp)) fun opens => ?_
  have finished (count : Nat) (items : List Selection) : Mirrors (Within count)
      (do return SelectionSet.mk id items (← spanFrom start))
      (do return SelectionSet.mk id items (← spanFrom start)) fun _ => Within count :=
    mirrors_spanned start _
  refine .ite_eaten (.below_within fun count below => .descend below ?_) (finished before [])
  have item := mirrors_selection (nested count (by omega))
  have advances := advances_selection (keeps_selectionSetWithin depth)
  exact .bind (item.itemsThrough advances _) (finished count)

theorem mirrors_variableDefinition :
    Mirrors (Within most) Unbounded.variableDefinition variableDefinition fun _ => Within most := by
  refine .pass looks_position fun start => .bind (mirrors_expectMark _) fun _ => ?_
  refine .bind mirrors_name fun name => .bind (mirrors_expectMark _) fun _ => ?_
  refine .bind mirrors_typeExpression fun type => .bind mirrors_defaultValue fun default? => ?_
  exact .bind mirrors_directives fun directives => mirrors_spanned start _

theorem mirrors_operationHead :
    Mirrors (Inside most) Unbounded.operationHead operationHead fun _ => Within most := by
  refine .pass (looks_isAt _) fun opens => .ite (fun _ => ?_) fun _ => ?_
  · exact .pure fun _ inside => inside.2
  refine .pass looks_kind fun kind => .bind mirrors_advance fun _ => ?_
  refine .below_within fun fewer less => .pass looks_kind fun following => ?_
  refine .ite (fun _ => .bind mirrors_name fun name => ?_) fun _ => .pure fun _ within => within
  exact .pure fun _ within => within

theorem mirrors_operation :
    Mirrors (Inside most) Unbounded.operation operation fun _ => Within most := by
  refine .pass looks_position fun start => .bind mirrors_operationHead fun (kind, name) => ?_
  refine .bind (mirrors_variableDefinition.optionalItems advances_variableDefinition _ _)
    fun variableDefinitions => ?_
  refine .bind mirrors_directives fun directives => .bind mirrors_selectionSet fun selections => ?_
  exact mirrors_spanned start _

theorem mirrors_fragment :
    Mirrors (Inside most) Unbounded.fragment fragment fun _ => Within most := by
  refine .pass looks_position fun start => .bind mirrors_advance fun _ => ?_
  refine .below_within fun fewer less => .bind mirrors_name fun name => ?_
  refine .bind (mirrors_expect (by simp)) fun _ => .weaken ?_ fun _ eaten => eaten.within
  refine .bind mirrors_name fun typeCondition => .bind mirrors_directives fun directives => ?_
  exact .bind mirrors_selectionSet fun selections => mirrors_spanned start _

/-! ## Type system definitions -/

theorem mirrors_description? :
    Mirrors (Within most) Unbounded.description? description? fun _ => Within most := by
  refine .pass looks_currentSpan fun span => .look looks_kind fun kind => ?_
  refine .ite (fun isString => ?_) fun _ => .pure fun _ holds => holds.1
  have inside : kind ≠ .endOfInput := by
    rintro rfl
    simp at isString
  refine .at_kind inside (.bind mirrors_currentText fun text => .bind mirrors_advance fun _ => ?_)
  exact .below_within fun _ _ => .pure fun _ within => within

theorem mirrors_inputValueDefinition : Mirrors (Within most) Unbounded.inputValueDefinition
    inputValueDefinition fun _ => Within most := by
  refine .pass looks_position fun start => .bind mirrors_description? fun description => ?_
  refine .bind mirrors_name fun name => .bind (mirrors_expectMark _) fun _ => ?_
  refine .bind mirrors_typeExpression fun type => .bind mirrors_defaultValue fun default? => ?_
  exact .bind mirrors_directives fun directives => mirrors_spanned start _

theorem mirrors_argumentDefinitions : Mirrors (Within most) Unbounded.argumentDefinitions
    argumentDefinitions fun _ => Within most :=
  mirrors_inputValueDefinition.optionalItems advances_inputValueDefinition _ _

theorem mirrors_fieldDefinitions : Mirrors (Within most) Unbounded.fieldDefinitions
    fieldDefinitions fun _ => Within most := by
  have field : Mirrors (Within most) Unbounded.fieldDefinition fieldDefinition
      fun _ => Within most := by
    refine .pass looks_position fun start => .bind mirrors_description? fun description => ?_
    refine .bind mirrors_name fun name => .bind mirrors_argumentDefinitions fun arguments => ?_
    refine .bind (mirrors_expectMark _) fun _ => .bind mirrors_typeExpression fun type => ?_
    exact .bind mirrors_directives fun directives => mirrors_spanned start _
  exact field.optionalItems advances_fieldDefinition _ _

theorem mirrors_enumValueDefinition : Mirrors (Within most) Unbounded.enumValueDefinition
    enumValueDefinition fun _ => Within most := by
  refine .pass looks_position fun start => .bind mirrors_description? fun description => ?_
  refine .bind mirrors_name fun name => .bind mirrors_directives fun directives => ?_
  exact mirrors_spanned start _

/-- Names that may be led by their separator as well. -/
theorem mirrors_names (separator : Punctuator) : Mirrors (Below most)
    (do let _ ← Unbounded.eatMark separator; Unbounded.separatedItems separator Unbounded.name)
    (do let _ ← eatMark separator; separatedItems separator name) fun _ => Within most := by
  refine .below_within fun fewer less => .bind (mirrors_eatMark _) fun _ => ?_
  exact (mirrors_name.separatedItems _).weaken fun _ eaten => eaten.within

theorem mirrors_implementedInterfaces : Mirrors (Within most) Unbounded.implementedInterfaces
    implementedInterfaces fun _ => Within most :=
  .bind (mirrors_eat (by simp)) fun _ =>
    .ite_eaten (mirrors_names _) (.pure fun _ within => within)

theorem mirrors_unionMembers :
    Mirrors (Within most) Unbounded.unionMembers unionMembers fun _ => Within most :=
  .bind (mirrors_eatMark _) fun _ => .ite_eaten (mirrors_names _) (.pure fun _ within => within)

theorem mirrors_typeBody (keyword : Keyword) :
    Mirrors (Within most) (Unbounded.typeBody keyword) (typeBody keyword) fun _ => Within most := by
  have fields (body : List Name → List FieldDefinition → TypeBody) : Mirrors (Within most)
      (do
        let implements ← Unbounded.implementedInterfaces
        let directives ← Unbounded.directives
        return (directives, body implements (← Unbounded.fieldDefinitions)))
      (do
        let implements ← implementedInterfaces
        let directives ← directives
        return (directives, body implements (← fieldDefinitions)))
      fun _ => Within most := by
    refine .bind mirrors_implementedInterfaces fun implements => ?_
    refine .bind mirrors_directives fun directives => ?_
    exact .bind mirrors_fieldDefinitions fun fields => .pure fun _ within => within
  cases keyword with
  | interface => exact fields .interface
  | union =>
      refine .bind mirrors_directives fun directives => .bind mirrors_unionMembers fun members => ?_
      exact .pure fun _ within => within
  | enum =>
      have values := @Mirrors.optionalItems _ most _ _ _ mirrors_enumValueDefinition
        advances_enumValueDefinition .openBrace .closeBrace
      refine .bind mirrors_directives fun directives => .bind values fun values => ?_
      exact .pure fun _ within => within
  | input =>
      have fields := @Mirrors.optionalItems _ most _ _ _ mirrors_inputValueDefinition
        advances_inputValueDefinition .openBrace .closeBrace
      refine .bind mirrors_directives fun directives => .bind fields fun fields => ?_
      exact .pure fun _ within => within
  | scalar => exact .bind mirrors_directives fun directives => .pure fun _ within => within
  | _ => exact fields .object

theorem mirrors_typeDefinition (keyword : Keyword) (description : Option Description) :
    Mirrors (Inside most) (Unbounded.typeDefinition keyword description)
      (typeDefinition keyword description) fun _ => Within most := by
  refine .pass (looks_startWith description) fun start => .bind mirrors_advance fun _ => ?_
  refine .below_within fun fewer less => .bind mirrors_name fun name => ?_
  exact .bind (mirrors_typeBody keyword) fun body => mirrors_spanned start _

/-- A root operation consumes a token in any case, so none is skipped after it. -/
theorem mirrors_rootOperation? :
    Mirrors (Inside most) Unbounded.rootOperation? rootOperation? fun _ => Below most := by
  refine .pass looks_position fun start => .pass looks_kind fun kind => ?_
  cases operationKind? kind with
  | none =>
      refine .bind (mirrors_reportCurrent _) fun _ => .bind mirrors_advance fun _ => ?_
      exact .pure fun _ below => below
  | some kind =>
      refine .bind mirrors_advance fun _ => .below fun fewer less => ?_
      refine .bind (mirrors_expectMark _) fun _ => .bind mirrors_name fun type => ?_
      exact (mirrors_spanned start _).imp fun _ _ within => Nat.lt_of_le_of_lt within less

theorem mirrors_rootOperations : Mirrors (Within most) Unbounded.rootOperations
    (itemsUntil .closeBrace rootOperation?) fun _ => Within most := by
  refine .of_bounded fun fewer less fuel enough => .imp ?_ fun _ _ => Within.mono less
  refine .recursive_within (fun fewest _ fuel others continues => ?_) enough
  refine .look (looks_isAtEndOf _) fun seen => .ite (fun _ => .pure ?_) fun notAtEnd => ?_
  · exact fun _ holds => holds.1
  · refine .weaken (.ahead_inside fun before atMost => ?_) fun tokens holds =>
      looks_inside holds.1 holds.2 notAtEnd
    refine .bind (Mirrors.progressing fun _ => mirrors_rootOperation?) fun first => ?_
    refine .below fun count below => .endTurn below ?_
    refine .bind (continues count (by omega)) fun others => .pure fun _ => Within.mono ?_
    omega

theorem itemsThrough_bind {β : Type} (closing : Punctuator) (item : Parser α)
    (next : List α → Parser β) :
    itemsThrough closing item >>= next = (do
      let items ← itemsUntil closing item
      expectMark closing
      next items) := by
  simp only [itemsThrough, bind_assoc, pure_bind]

theorem mirrors_schemaDefinition :
    Mirrors (Inside most) Unbounded.schemaDefinition schemaDefinition fun _ => Within most := by
  refine .pass looks_position fun start => .bind mirrors_advance fun _ => ?_
  refine .below_within fun fewer less => .bind mirrors_directives fun directives => ?_
  refine .bind (mirrors_expectMark _) fun _ => ?_
  rw [itemsThrough_bind]
  refine .bind mirrors_rootOperations fun operations => .bind (mirrors_expectMark _) fun _ => ?_
  exact mirrors_spanned start _

theorem mirrors_directiveLocationsWithin {fuel : Nat} (enough : most < fuel) :
    Mirrors (Within most) Unbounded.directiveLocations (directiveLocationsWithin fuel)
      fun _ => Within most := by
  refine .recursive_within (fun fewer _ fuel others continues => ?_) enough
  refine .ahead_within fun before atMost => .bind mirrors_currentText fun text => ?_
  refine .look looks_kind fun kind => ?_
  have none : Mirrors (fun tokens => Within before tokens ∧ kind = Token.headKind tokens)
      (do reportCurrent "Expected a directive location"; return ([] : List DirectiveLocation))
      (do reportCurrent "Expected a directive location"; return [])
      fun _ => Within before :=
    .bind (mirrors_reportCurrent _) fun _ => .pure fun _ holds => holds.1
  cases DirectiveLocation.ofText? text with
  | none => exact none
  | some location =>
      cases isName : kind.isName with
      | false => exact none
      | true =>
          have inside : kind ≠ .endOfInput := by
            rintro rfl
            cases isName
          refine .at_kind inside (.bind mirrors_advance fun _ => ?_)
          refine .below_within fun count below => .bind (mirrors_eatMark _) fun continued => ?_
          refine .ite_eaten (.below_within fun fewest less => ?_) (.pure fun _ within => within)
          refine .endTurn (Nat.lt_trans less below) ?_
          exact .bind (continues fewest (by omega)) fun others => .pure fun _ within => within

theorem mirrors_directiveDefinition (description : Option Description) :
    Mirrors (Inside most) (Unbounded.directiveDefinition description)
      (directiveDefinition description) fun _ => Within most := by
  refine .pass (looks_startWith description) fun start => .bind mirrors_advance fun _ => ?_
  refine .below_within fun fewer less => .bind (mirrors_expectMark _) fun _ => ?_
  refine .bind mirrors_name fun name => .bind mirrors_argumentDefinitions fun arguments => ?_
  refine .bind (mirrors_eat (by simp)) fun repeatable => .weaken ?_ fun _ eaten => eaten.within
  refine .bind (mirrors_expect (by simp)) fun _ => .weaken ?_ fun _ eaten => eaten.within
  refine .bind (mirrors_eatMark _) fun _ => .weaken ?_ fun _ eaten => eaten.within
  refine .of_depthBound fun fewest lower fuel enough => ?_
  refine .imp ?_ fun _ _ => Within.mono lower
  exact .bind (mirrors_directiveLocationsWithin enough) fun locations => mirrors_spanned start _

/-! ## Documents -/

theorem mirrors_definitionAfter (description : Option Description) :
    Mirrors (Within most) (Unbounded.definitionAfter description) (definitionAfter description)
      fun _ => Within most := by
  have found {γ : Type} {kind : TokenKind} {run : FreeRun γ} {parser : Parser γ}
      (definition : γ → Definition) (inside : kind ≠ .endOfInput)
      (mirrors : Mirrors (Inside most) run parser fun _ => Within most) :
      Mirrors (fun tokens => Within most tokens ∧ kind = Token.headKind tokens)
        (do return some (definition (← run))) (do return some (definition (← parser)))
        fun _ => Within most :=
    .at_kind inside (.bind mirrors fun value => .pure fun _ within => within)
  have nothing {kind : TokenKind} (title : String) :
      Mirrors (fun tokens => Within most tokens ∧ kind = Token.headKind tokens)
        (do reportCurrent title; return (none : Option Definition))
        (do reportCurrent title; return none) fun _ => Within most :=
    .bind (mirrors_reportCurrent title) fun _ => .pure fun _ holds => holds.1
  refine .look looks_kind fun kind => ?_
  cases kind with
  | keyword keyword =>
      cases keyword with
      | schema => exact found _ (by simp) mirrors_schemaDefinition
      | directive => exact found _ (by simp) (mirrors_directiveDefinition description)
      | fragment => exact found _ (by simp) mirrors_fragment
      | query => exact found _ (by simp) mirrors_operation
      | mutation => exact found _ (by simp) mirrors_operation
      | subscription => exact found _ (by simp) mirrors_operation
      | typeDefinition => exact found _ (by simp) (mirrors_typeDefinition _ description)
      | interface => exact found _ (by simp) (mirrors_typeDefinition _ description)
      | union => exact found _ (by simp) (mirrors_typeDefinition _ description)
      | enum => exact found _ (by simp) (mirrors_typeDefinition _ description)
      | input => exact found _ (by simp) (mirrors_typeDefinition _ description)
      | scalar => exact found _ (by simp) (mirrors_typeDefinition _ description)
      | _ => exact nothing _
  | punctuator mark =>
      cases mark with
      | openBrace => exact found _ (by simp) mirrors_operation
      | _ => exact nothing _
  | _ => exact nothing _

theorem mirrors_definition? :
    Mirrors (Within most) Unbounded.definition? definition? fun _ => Within most :=
  .bind mirrors_description? mirrors_definitionAfter

/-- The definitions end where the input ends. -/
theorem mirrors_definitionsWithin {fuel : Nat} (enough : most < fuel) :
    Mirrors (Within most) Unbounded.definitions (definitionsWithin fuel)
      fun _ tokens => tokens = [] := by
  refine .recursive (fun fewer _ fuel others continues => ?_) enough
  refine .look looks_isAtEnd fun seen => .ite (fun isEnd => ?_) fun notEnd => ?_
  · exact .pure fun _ holds => holds.2.mp isEnd
  · refine .weaken (.turn mirrors_definition? advances_definition? fun first count below => ?_)
      fun tokens holds => ⟨fun isEmpty => notEnd (holds.2.mpr isEmpty), holds.1⟩
    exact .bind (continues count below) fun others => .pure fun _ isEmpty => isEmpty

theorem mirrors_document :
    Mirrors (Within most) Unbounded.document document fun _ tokens => tokens = [] := by
  refine .pass looks_position fun start => .of_depthBound fun fewer less fuel enough => ?_
  exact .bind (mirrors_definitionsWithin enough) fun definitions => mirrors_spanned start _

/-- A run has come to the end of the tokens of a source. -/
structure Completes (tokens : List Token) (last : Token) (ledger : Ledger) : Prop where
  /-- Only the mark of the end is ahead. -/
  current : ledger.state.current = last
  upcoming : ledger.state.upcoming = []
  /-- Each token has been consumed once, in order. -/
  consumed : ledger.deeds.filterMap Deed.token? = tokens
  /-- Each turn of a loop and each step into a nested production has consumed a token. -/
  progresses : ∀ deed ∈ ledger.deeds, deed.Progresses
  /-- Where no error has been reported, no token has been skipped. -/
  discards : Diagnostic.anyError ledger.state.diagnostics = false →
    ∀ token, Deed.discard token ∉ ledger.deeds

/-- The tokens of a source are ahead at the start. -/
theorem ahead_start {source : String} {tokens : List Token} {last : Token}
    (scans : Token.scan source = tokens ++ [last]) :
    (start (Token.scan source)).current :: (start (Token.scan source)).upcoming =
      tokens ++ [last] := by
  rw [scans]
  cases tokens <;> rfl

theorem isOrderedAt_start {source : String} {tokens : List Token} {last : Token}
    (scans : Token.scan source = tokens ++ [last]) (isEnd : last.kind = .endOfInput)
    (inside : ∀ token ∈ tokens, token.kind ≠ .endOfInput) :
    (start (Token.scan source)).IsOrderedAt tokens :=
  ⟨⟨⟨last, ahead_start scans, isEnd⟩, inside⟩, areInOrder_start source⟩

/-- Where no token is left, all have been consumed. -/
theorem Accounts.completes {state after : ParserState} {tokens : List Token} {last : Token}
    {deeds : List Deed} (ahead : state.current :: state.upcoming = tokens ++ [last])
    (accounts : Accounts state deeds after []) : Completes tokens last ⟨after, deeds⟩ := by
  rcases accounts.isAt.ends with ⟨mark, same, -⟩
  obtain ⟨current, upcoming⟩ := List.cons.inj same
  have parts : deeds.filterMap Deed.token? ++ [after.current] = tokens ++ [last] := by
    rw [← ahead, accounts.consumed, upcoming]
  obtain ⟨consumed, atLast⟩ := List.append_inj' parts rfl
  constructor
  · exact (List.cons.inj atLast).1
  · exact upcoming
  · exact consumed
  · exact accounts.progresses
  · intro noError token member
    exact Bool.false_ne_true (noError.symm.trans (accounts.discards token member))

end Parser

namespace Document

/-- The parser without bounds ends as the parser that counts tokens does, wherever no fault stops
it, with calls no deeper than the tokens are many. It has consumed each token exactly once then. -/
theorem parse_completes {source : String} {parsed : ParsedDocument}
    (parses : parse source = .ok parsed) :
    ∃ tokens last, Token.scan source = tokens ++ [last] ∧ last.kind = .endOfInput ∧
      (∀ token ∈ tokens, token.kind ≠ .endOfInput) ∧
      ∀ limit, tokens.length < limit → ∃ ledger,
        Parser.Unbounded.document.outcome? limit ⟨Parser.start (Token.scan source), []⟩ =
          some (.ok (parsed.document, ledger)) ∧
        parsed = ⟨parsed.document, ledger.state.interner, ledger.state.diagnostics⟩ ∧
        Parser.Completes tokens last ledger := by
  obtain ⟨tokens, last, scans, isEnd, inside⟩ :
      ∃ tokens last, Token.scan source = tokens ++ [last] ∧ last.kind = .endOfInput ∧
        ∀ token ∈ tokens, token.kind ≠ .endOfInput :=
    Token.scanFrom_eq_append 0 source.toList
  refine ⟨tokens, last, scans, isEnd, inside, fun limit deep => ?_⟩
  have isAt := Parser.isOrderedAt_start scans isEnd inside
  have mirrored := Parser.mirrors_document limit _ tokens [] deep isAt (Nat.le_refl _)
  simp only [parse, ofTokens, bind, Except.bind] at parses
  cases ran : Parser.document (Parser.start (Token.scan source)) with
  | error fault =>
      rw [ran] at parses
      cases parses
  | ok step =>
      rcases step with ⟨document, after⟩
      rw [ran] at parses mirrored
      cases parses
      rcases mirrored with ⟨deeds, rest, outcome, accounts, rfl⟩
      have completes := accounts.completes (Parser.ahead_start scans)
      exact ⟨⟨after, deeds⟩, outcome, rfl, completes⟩

namespace UnclosedList

/-- Neither what the parenthesis closes nor the value that the brace stands for is there. -/
def source : String :=
  "query \x7b ) a(b: [1 \x7d"

theorem parse_unclosed : ∃ parsed tokens last, parse source = .ok parsed ∧
    Token.scan source = tokens ++ [last] ∧
    ∀ limit, tokens.length < limit → ∃ ledger,
      Parser.Unbounded.document.outcome? limit ⟨Parser.start (Token.scan source), []⟩ =
        some (.ok (parsed.document, ledger)) ∧
      Parser.Completes tokens last ledger := by
  have isOk : (parse source).isOk = true := by
    decide +kernel
  cases parses : parse source with
  | error fault =>
      rw [parses] at isOk
      cases isOk
  | ok parsed =>
      rcases parse_completes parses with ⟨tokens, last, scans, -, -, ends⟩
      refine ⟨parsed, tokens, last, rfl, scans, fun limit deep => ?_⟩
      rcases ends limit deep with ⟨ledger, outcome, -, completes⟩
      exact ⟨ledger, outcome, completes⟩

end UnclosedList

end Document

end GraphQL

import GraphQL.Proofs.Parsing.Correctness
import GraphQL.Proofs.Parsing.Outlining

/-!
# Documents lie in their sources

Where a source is read without errors, everything in its document stands where its span says: inside
the source and inside what it is a part of, behind the parts before it, and each name over the text
that it is. The place of a variable goes from its dollar sign to the end of its name.

A production closes its span where the last token ends that it or a production inside it has
consumed, so its parts are inside. A definition with a description starts at the description, which
has been read before its keyword is known.
-/

namespace GraphQL

namespace Parser

section Productions

variable {source : List Char} {limit room start : Nat} {moved : Bool} {before : List Outline}

/-! ## Types and literals -/

theorem adds_typeExpressionWithin (depth : Nat) :
    Adds source limit true (typeExpressionWithin depth) fun type => [type.outline] := by
  induction depth with
  | zero =>
      intro room within origin moved before
      exact .bind (adds_name.leads within) fun name => .pure fun _ laid => laid
  | succ depth ih =>
      refine .production fun room within start => ?_
      have marked (type : TypeExpression) :
          Leads (·.Laid source room start true [type.outline]) (do
              if ← eatMark .bang then return .nonNull type (← spanFrom start) else return type)
            fun result state => state.Laid source room start true [result.outline] := by
        refine .bind (leads_eatMark .bang) fun isMarked => .ite (fun _ => ?_) fun _ => ?_
        · exact .strengthen (leads_spanned fun _ => rfl) fun _ laid => laid.kept
        · exact .pure fun _ laid => laid.kept
      refine .bind (leads_eatMark .openBracket) fun opens => .ite (fun _ => ?_) fun _ => ?_
      · refine .bind (ih.leads within) fun item => ?_
        refine .bind (leads_expectMark .closeBracket) fun _ => ?_
        exact .bind leads_spanFrom fun span => marked (.list item span)
      · exact .bind (adds_name.leads within) fun name => marked (.named name)

theorem adds_typeExpression : Adds source limit true typeExpression fun type => [type.outline] :=
  fun _ within _ _ _ => .peek (fun _ => rfl) fun depth =>
    (adds_typeExpressionWithin depth).leads within

theorem adds_intLiteral :
    AddsFrom TokenKind.IsSolid source limit true intLiteral fun literal => [literal.outline] := by
  intro room within origin moved before
  refine leads_currentText fun text => .look (fun _ => rfl) fun span => ?_
  refine .bind (leads_advance_leaf.strengthen fun _ holds => ⟨holds.1.1, holds.2⟩) fun _ => ?_
  exact .ite (fun _ => .pure fun _ laid => laid) fun _ => .after_error (leads_report _) (.pure _)

/-- The dollar sign is a piece of the source, and the name is a piece behind it. -/
theorem adds_variableLiteral (constant : Bool) :
    AddsFrom (· = .punctuator .dollar) source limit true (variableLiteral constant)
      fun literal => [literal.outline] := by
  refine .of_fresh fun first room within _ => .look (fun _ => rfl) fun start => ?_
  have sign : Leads (fun state => (state = first ∧
        state.Laid source room first.current.span.start false [] ∧
          state.current.kind = .punctuator .dollar) ∧ state.current.span.start = start) advance
      fun _ state =>
        state.Laid source room start true [.node first.current.span []] ∧
          first.current.span.start = start ∧ first.current.span.IsPiece source ['$'] := by
    refine .strengthen (.fact (@leads_advance_leaf source room start false [] _) _) ?_
    rintro state ⟨⟨rfl, laid, isDollar⟩, rfl⟩
    have solid : state.current.kind.IsSolid := isDollar ▸ .punctuator _
    have fits := laid.stands.fits _ List.mem_cons_self
    rcases fits.piece solid with ⟨text, isText, piece⟩
    cases isText.symm.trans (fits.sign _ isDollar)
    exact ⟨⟨⟨laid, solid⟩, rfl⟩, rfl, piece⟩
  refine .bind sign fun _ => .bind (leads_name.fact _) fun name => ?_
  refine .look (fun _ => rfl) fun span => ?_
  refine .ite (fun _ => .after_error (leads_report _) (.pure _)) fun _ => .pure ?_
  rintro state ⟨⟨⟨laid, stop⟩, rfl, isSign⟩, rfl⟩
  have behind := List.rel_of_pairwise_cons laid.between.ordered List.mem_cons_self
  have reached := (laid.consumed rfl).1
  cases laid.placed (.name name) (by simp) with
  | name isName =>
      rcases isSign.through isName behind with ⟨gap, piece⟩
      refine laid.closed rfl (.var gap ?_)
      rw [Nat.max_eq_left reached, stop]
      exact piece

theorem adds_simpleLiteral :
    Adds source limit true simpleLiteral fun literal => [literal.outline] := by
  intro room within origin moved before
  refine .look (fun _ => rfl) fun span => .look (fun _ => rfl) fun kind => ?_
  have leaf {kind : TokenKind} (solid : kind.IsSolid) {literal : Literal}
      (same : literal.outline = .node span []) : Leads (fun state =>
          (state.Laid source room origin moved before ∧ state.current.span = span) ∧
            state.current.kind = kind) (do advance; return literal)
        fun result state => state.Laid source room origin true (before ++ [result.outline]) := by
    refine .bind (.strengthen (@leads_advance_leaf source room origin moved before span) ?_)
      fun _ => .pure fun _ laid => by rwa [same]
    rintro state ⟨⟨laid, isSpan⟩, rfl⟩
    exact ⟨⟨laid, solid⟩, isSpan⟩
  split
  · refine (adds_intLiteral.leads within).strengthen ?_
    rintro state ⟨⟨laid, -⟩, isInt⟩
    exact ⟨laid, by rw [isInt]; decide⟩
  · exact leads_currentText fun text =>
      (leaf (by decide) rfl).strengthen fun _ holds => holds.1
  · exact leads_currentText fun text =>
      (leaf (by decide) rfl).strengthen fun _ holds => holds.1
  · refine leads_currentText fun text => ?_
    cases means : Text.blockValue (bodyBetween 3 text) with
    | error fault =>
        intro _ _ _ run
        cases run
    | ok value =>
        exact (leaf (by decide) rfl).strengthen fun _ holds => holds.1
  · exact leaf (by decide) rfl
  · exact leaf (by decide) rfl
  · exact leaf (by decide) rfl
  · refine .ite (fun _ => ?_) fun _ => .after_error (leads_reportCurrent _) (.pure _)
    exact .strengthen (.bind (adds_name.leads within) fun name => .pure fun _ laid => laid)
      fun _ holds => holds.1.1

theorem adds_literalWithin (constant : Bool) (depth : Nat) :
    Adds source limit true (literalWithin constant depth) fun literal => [literal.outline] := by
  induction depth with
  | zero => exact adds_simpleLiteral
  | succ depth ih =>
      have fields : Adds source limit true (do
            let name ← name
            expectMark .colon
            return (name, ← literalWithin constant depth))
          fun field => [.name field.1, field.2.outline] := by
        intro room within origin moved before
        refine .bind (adds_name.leads within) fun name => ?_
        refine .bind (leads_expectMark .colon) fun _ => ?_
        exact .bind (ih.leads within) fun value => .pure fun _ laid => by simpa using laid
      refine .production fun room within start => .look (fun _ => rfl) fun kind => ?_
      split
      · exact (adds_variableLiteral constant).leads within
      · refine .bind (leads_advance_opening (.punctuator _)) fun _ => ?_
        refine .bind ((ih.itemsThrough .closeBracket).leads within) fun items => ?_
        exact leads_spanned fun span => by
          simp [Literal.outline, Literal.itemOutlines_eq, List.map_eq_flatMap]
      · refine .bind (leads_advance_opening (.punctuator _)) fun _ => ?_
        refine .bind ((fields.itemsThrough .closeBrace).leads within) fun fields => ?_
        exact leads_spanned fun span => by
          simp [Literal.outline, Literal.fieldOutlines_eq]
      · exact (adds_simpleLiteral room within start false []).strengthen fun _ holds => holds.1

theorem adds_literal (constant : Bool) :
    Adds source limit true (literal constant) fun literal => [literal.outline] :=
  fun _ within _ _ _ => .peek (fun _ => rfl) fun depth =>
    (adds_literalWithin constant depth).leads within

/-! ## Arguments and directives -/

theorem adds_argument : Adds source limit true argument fun argument => [argument.outline] := by
  refine .production fun room within start => .bind (adds_name.leads within) fun name => ?_
  refine .bind (leads_expectMark .colon) fun _ => ?_
  exact .bind ((adds_literal false).leads within) fun value => leads_spanned fun _ => rfl

theorem adds_arguments :
    Adds source limit false arguments fun arguments => arguments.map Argument.outline :=
  (adds_argument.optionalItems _ _).congr fun _ => List.map_eq_flatMap.symm

theorem adds_directive : AddsFrom (· = .punctuator .atSign) source limit true directive
    fun directive => [directive.outline] := by
  refine .production fun room within start => ?_
  refine .bind (leads_advance_opening (.punctuator _)) fun _ => ?_
  refine .bind (adds_name.leads within) fun name => ?_
  exact .bind (adds_arguments.leads within) fun arguments => leads_spanned fun _ => rfl

theorem adds_directives :
    Adds source limit false directives fun directives => directives.map Directive.outline :=
  adds_directive.repeatedItems.congr fun _ => List.map_eq_flatMap.symm

theorem adds_defaultValue :
    Adds source limit false defaultValue fun value => value.toList.map Literal.outline := by
  intro room within origin moved before
  refine .bind (leads_eatMark .equals) fun eaten => .ite (fun _ => ?_) fun notEaten => ?_
  · refine .bind ((adds_literal true).leads within) fun value => .pure fun _ laid => ?_
    exact laid.forget moved
  · rw [Bool.eq_false_iff.mpr notEaten]
    exact .pure fun _ laid => by simpa using laid

/-! ## Type system definitions -/

/-- Where a definition starts whose description has been read. -/
def startsAt (description : Option Description) (state : ParserState) : Nat :=
  description.elim state.current.span.start (·.span.start)

/-- A string that opens a definition is consumed, and the definition starts there. -/
theorem leads_description? {origin : Nat} : Leads (fun state =>
      state.Laid source room origin moved before ∧ state.current.span.start = start) description?
    fun description state =>
      state.Laid source room origin moved (before ++ description.toList.map Description.outline) ∧
        startsAt description state = start := by
  refine .look (fun _ => rfl) fun span => .look (fun _ => rfl) fun kind => .ite (fun isString => ?_)
    fun _ => .pure fun _ holds => by simpa [startsAt] using holds.1.1
  have solid : kind.IsSolid := by
    rcases Bool.or_eq_true_iff.mp isString with isQuoted | isBlock
    · rw [eq_of_beq isQuoted]
      decide
    · rw [eq_of_beq isBlock]
      decide
  have leaf := (@leads_advance_leaf source room origin moved before span).fact (span.start = start)
  refine leads_currentText fun text => .bind (leaf.strengthen ?_) fun _ => .pure ?_
  · rintro state ⟨⟨⟨⟨laid, starts⟩, rfl⟩, rfl⟩, -⟩
    exact ⟨⟨⟨laid, solid⟩, rfl⟩, starts⟩
  · exact fun _ holds => ⟨holds.1.forget moved, holds.2⟩

theorem adds_description? : Adds source limit false description? fun description =>
    description.toList.map Description.outline := by
  intro room within origin moved before state result after run
  rcases leads_description? state result after run with ⟨found, reported, quiet⟩
  exact ⟨found, reported, fun nothing laid => (quiet nothing ⟨laid, rfl⟩).1⟩

theorem adds_inputValueDefinition : Adds source limit true inputValueDefinition
    fun definition => [definition.outline] := by
  refine .production fun room within start => ?_
  refine .bind (adds_description?.leads within) fun description => ?_
  refine .bind (adds_name.leads within) fun name => .bind (leads_expectMark .colon) fun _ => ?_
  refine .bind (adds_typeExpression.leads within) fun type => ?_
  refine .bind (adds_defaultValue.leads within) fun default? => ?_
  refine .bind (adds_directives.leads within) fun directives => leads_spanned fun _ => ?_
  simp [InputValueDefinition.outline]

theorem adds_argumentDefinitions : Adds source limit false argumentDefinitions
    fun definitions => definitions.map InputValueDefinition.outline :=
  (adds_inputValueDefinition.optionalItems _ _).congr fun _ => List.map_eq_flatMap.symm

theorem adds_fieldDefinition : Adds source limit true fieldDefinition
    fun definition => [definition.outline] := by
  refine .production fun room within start => ?_
  refine .bind (adds_description?.leads within) fun description => ?_
  refine .bind (adds_name.leads within) fun name => ?_
  refine .bind (adds_argumentDefinitions.leads within) fun arguments => ?_
  refine .bind (leads_expectMark .colon) fun _ => ?_
  refine .bind (adds_typeExpression.leads within) fun type => ?_
  refine .bind (adds_directives.leads within) fun directives => leads_spanned fun _ => ?_
  simp [FieldDefinition.outline]

theorem adds_fieldDefinitions : Adds source limit false fieldDefinitions
    fun definitions => definitions.map FieldDefinition.outline :=
  (adds_fieldDefinition.optionalItems _ _).congr fun _ => List.map_eq_flatMap.symm

theorem adds_enumValueDefinition : Adds source limit true enumValueDefinition
    fun definition => [definition.outline] := by
  refine .production fun room within start => ?_
  refine .bind (adds_description?.leads within) fun description => ?_
  refine .bind (adds_name.leads within) fun name => ?_
  refine .bind (adds_directives.leads within) fun directives => leads_spanned fun _ => ?_
  simp [EnumValueDefinition.outline]

/-- The names after a token, with separators between them. -/
theorem adds_namesAfter {opening : TokenKind} (solid : opening.IsSolid) (separator : Punctuator) :
    Adds source limit false (do
        if ← eat opening then
          let _ ← eatMark separator
          separatedItems separator name
        else return [])
      fun names => names.map .name := by
  intro room within origin moved before
  refine .bind (leads_eat solid) fun eaten => .ite (fun _ => ?_) fun notEaten => ?_
  · refine .bind (leads_eatMark separator) fun _ => ?_
    refine ((adds_name.separatedItems separator).leads within).weaken fun names state laid => ?_
    rw [← List.map_eq_flatMap] at laid
    exact laid.forget moved
  · rw [Bool.eq_false_iff.mpr notEaten]
    exact .pure fun _ laid => by simpa using laid

theorem adds_implementedInterfaces : Adds source limit false implementedInterfaces
    fun names => names.map .name :=
  adds_namesAfter (.keyword _) _

theorem adds_unionMembers : Adds source limit false unionMembers fun names => names.map .name :=
  adds_namesAfter (.punctuator _) _

theorem adds_typeBody (keyword : Keyword) : Adds source limit false (typeBody keyword) fun said =>
    said.2.frontOutlines ++ said.1.map Directive.outline ++ said.2.backOutlines := by
  intro room within origin moved before
  have fields {body : List Name → List FieldDefinition → TypeBody}
      (same : ∀ implements fields, (body implements fields).frontOutlines = implements.map .name ∧
        (body implements fields).backOutlines = fields.map FieldDefinition.outline) :
      Leads (·.Laid source room origin moved before) (do
          let implements ← implementedInterfaces
          let directives ← directives
          return (directives, body implements (← fieldDefinitions)))
        fun said state => state.Laid source room origin (false || moved) (before ++
          (said.2.frontOutlines ++ said.1.map Directive.outline ++ said.2.backOutlines)) := by
    refine .bind (adds_implementedInterfaces.leads within) fun implements => ?_
    refine .bind (adds_directives.leads within) fun directives => ?_
    refine .bind (adds_fieldDefinitions.leads within) fun fields => .pure fun _ laid => ?_
    rw [(same implements fields).1, (same implements fields).2]
    simpa using laid
  have items {γ : Type} {parser : Parser γ} {body : γ → TypeBody}
      (adds : Adds source limit false parser fun result => (body result).backOutlines)
      (nothing : ∀ result, (body result).frontOutlines = []) :
      Leads (·.Laid source room origin moved before) (do
          let directives ← directives
          return (directives, body (← parser)))
        fun said state => state.Laid source room origin (false || moved) (before ++
          (said.2.frontOutlines ++ said.1.map Directive.outline ++ said.2.backOutlines)) := by
    refine .bind (adds_directives.leads within) fun directives => ?_
    refine .bind (adds.leads within) fun result => .pure fun _ laid => ?_
    rw [nothing]
    simpa using laid
  simp only [typeBody]
  split
  · exact fields fun _ _ => ⟨rfl, rfl⟩
  · exact items adds_unionMembers fun _ => rfl
  · exact items ((adds_enumValueDefinition.optionalItems _ _).congr fun _ =>
      List.map_eq_flatMap.symm) fun _ => rfl
  · exact items ((adds_inputValueDefinition.optionalItems _ _).congr fun _ =>
      List.map_eq_flatMap.symm) fun _ => rfl
  · refine .bind (adds_directives.leads within) fun directives => .pure fun _ laid => ?_
    simpa [TypeBody.frontOutlines, TypeBody.backOutlines] using laid
  · exact fields fun _ _ => ⟨rfl, rfl⟩

/-- A definition whose description has been placed stands before the token that opens it. -/
def Opens (source : List Char) (room start : Nat) (description : Option Description)
    (opening : TokenKind) (state : ParserState) : Prop :=
  (state.Laid source room start false (description.toList.map Description.outline) ∧
    startsAt description state = start) ∧ state.current.kind = opening

theorem leads_opening {α : Type} {description : Option Description} {word : Keyword}
    {next : Nat → Parser α} {outline : α → Outline}
    (leads : ∀ start, Leads
        (·.Laid source room start true (description.toList.map Description.outline)) (next start)
        fun result state => state.Laid source room start true [outline result]) :
    Leads (Opens source room start description (.keyword word))
      (do
        let start ← startWith description
        advance
        next start)
      fun result state => state.Laid source room start true [outline result] := by
  have looks (state : ParserState) :
      startWith description state = .ok (startsAt description state, state) := by
    cases description <;> rfl
  refine .look looks fun seen state result after run => ?_
  have continues := Leads.bind
    (@leads_advance_opening source room seen false _ _ (.keyword word)) fun _ => leads seen
  rcases continues state result after run with ⟨found, reported, quiet⟩
  refine ⟨found, reported, fun nothing ⟨⟨⟨laid, starts⟩, isWord⟩, isSeen⟩ => ?_⟩
  cases starts.symm.trans isSeen
  exact quiet nothing ⟨laid, isWord⟩

theorem leads_typeDefinition {keyword : Keyword} {description : Option Description}
    (within : room ≤ limit) : Leads (Opens source room start description (.keyword keyword))
      (typeDefinition keyword description) fun result state =>
        state.Laid source room start true [result.outline] := by
  refine leads_opening fun start => .bind (adds_name.leads within) fun name => ?_
  refine .bind ((adds_typeBody keyword).leads within) fun said => leads_spanned fun _ => ?_
  simp [TypeDefinition.outline]

theorem adds_directiveLocationsWithin (fuel : Nat) :
    Adds source limit false (directiveLocationsWithin fuel) fun _ => [] := by
  induction fuel with
  | zero =>
      intro room within origin moved before
      exact .pure fun _ laid => by simpa using laid
  | succ fuel ih =>
      intro room within origin moved before
      refine leads_currentText fun text => .look (fun _ => rfl) fun kind => ?_
      split
      · rename_i location found isName
        have consumed := @leads_advance_mark source room origin moved before
        refine .bind (consumed.strengthen fun state holds => ⟨holds.1.1, ?_⟩) fun _ => ?_
        · rw [holds.2]
          exact .of_isName isName
        refine .bind (leads_eatMark .pipe) fun continues => .ite (fun _ => ?_) fun _ => ?_
        · refine .bind (ih.leads within) fun others => .pure fun state laid => ?_
          exact laid.kept.forget moved
        · refine .pure fun _ laid => ?_
          rw [List.append_nil]
          exact laid.kept.forget moved
      · exact .after_error (leads_reportCurrent _) (.pure _)

theorem adds_rootOperation? : Adds source limit true rootOperation? fun operation =>
    operation.toList.map RootOperation.outline := by
  refine .production fun room within start => .look (fun _ => rfl) fun kind => ?_
  have opening {kind : TokenKind} {operation : OperationKind}
      (opens : operationKind? kind = some operation) : kind.IsSolid := by
    constructor <;> rintro rfl <;> cases opens
  split
  · exact .after_error (leads_reportCurrent _) (.bind keeps_advance fun _ => .pure _)
  · rename_i operation opens
    refine .bind (leads_advance_opening (opening opens)) fun _ => ?_
    refine .bind (leads_expectMark .colon) fun _ => .bind (adds_name.leads within) fun type => ?_
    exact .bind leads_spanFrom fun span => .pure fun _ laid => laid

theorem adds_schemaDefinition : AddsFrom TokenKind.IsSolid source limit true schemaDefinition
    fun definition => [definition.outline] := by
  refine .production fun room within start => .bind leads_advance_mark fun _ => ?_
  refine .bind (adds_directives.leads within) fun directives => ?_
  refine .bind (leads_expectMark .openBrace) fun _ => ?_
  refine .bind ((adds_rootOperation?.itemsThrough .closeBrace).leads within) fun operations => ?_
  refine leads_spanned fun _ => ?_
  simp [SchemaDefinition.outline, List.filterMap_eq_flatMap_toList, List.map_flatMap]

theorem leads_directiveDefinition {description : Option Description} (within : room ≤ limit) :
    Leads (Opens source room start description (.keyword .directive))
      (directiveDefinition description) fun result state =>
        state.Laid source room start true [result.outline] := by
  refine leads_opening fun start => .bind (leads_expectMark .atSign) fun _ => ?_
  refine .bind (adds_name.leads within) fun name => ?_
  refine .bind (adds_argumentDefinitions.leads within) fun arguments => ?_
  refine .bind (leads_eat (.keyword _)) fun repeatable => ?_
  refine .bind (leads_expectWord _) fun _ => .bind (leads_eatMark .pipe) fun _ => ?_
  refine .peek (fun _ => rfl) fun fuel => ?_
  refine .bind ((adds_directiveLocationsWithin fuel).leads within) fun locations => ?_
  refine .strengthen (leads_spanned fun _ => ?_) fun _ laid => laid.kept
  simp [DirectiveDefinition.outline]

/-! ## Executable definitions -/

theorem adds_variableDefinition : Adds source limit true variableDefinition
    fun definition => [definition.outline] := by
  refine .production fun room within start => .bind (leads_expectMark .dollar) fun _ => ?_
  refine .bind (adds_name.leads within) fun name => .bind (leads_expectMark .colon) fun _ => ?_
  refine .bind (adds_typeExpression.leads within) fun type => ?_
  refine .bind (adds_defaultValue.leads within) fun default? => ?_
  refine .bind (adds_directives.leads within) fun directives => leads_spanned fun _ => ?_
  simp [VariableDefinition.outline]

section Selections

variable {inner : Parser SelectionSet}

theorem adds_fieldSelection
    (adds : Adds source limit true inner fun selections => [selections.outline]) :
    Adds source limit true (fieldSelection inner) fun selection => [selection.outline] := by
  refine .production fun room within start => .bind (adds_name.leads within) fun first => ?_
  have ending (responseAlias : Option Name) (name : Name) :
      Leads (·.Laid source room start true (responseAlias.toList.map .name ++ [.name name])) (do
          let arguments ← arguments
          let directives ← directives
          let selections ←
            if ← isAt (.punctuator .openBrace) then pure (some (← inner)) else pure none
          return Selection.field
            { responseAlias, name, arguments, directives, span := ← spanFrom start } selections)
        fun selection state => state.Laid source room start true [selection.outline] := by
    refine .bind (adds_arguments.leads within) fun arguments => ?_
    refine .bind (adds_directives.leads within) fun directives => ?_
    refine .peek (fun _ => rfl) fun opens => .ite (fun _ => ?_) fun _ => ?_
    · refine .bind (adds.leads within) fun selections => .pure_bind (leads_spanned fun _ => ?_)
      simp [Selection.outline, Selection.innerOutlines, SelectionSet.outline]
    · refine .pure_bind (leads_spanned fun _ => ?_)
      simp [Selection.outline, Selection.innerOutlines]
  refine .bind (leads_eatMark .colon) fun renamed => .ite (fun _ => ?_) fun _ => ?_
  · exact .bind (adds_name.leads within) fun name => ending (some first) name
  · exact (ending none first).strengthen fun _ laid => laid.kept

theorem leads_spreadSelection
    (adds : Adds source limit true inner fun selections => [selections.outline])
    (within : room ≤ limit) :
    Leads (·.Laid source room start true []) (spreadSelection start inner) fun selection state =>
      state.Laid source room start true [selection.outline] := by
  have inlineFragment (typeCondition : Option Name) :
      Leads (·.Laid source room start true (typeCondition.toList.map .name)) (do
          let directives ← directives
          let selections ← inner
          return Selection.inlineFragment { typeCondition, directives, span := ← spanFrom start }
            selections)
        fun selection state => state.Laid source room start true [selection.outline] := by
    refine .bind (adds_directives.leads within) fun directives => ?_
    refine .bind (adds.leads within) fun selections => leads_spanned fun _ => ?_
    simp [Selection.outline, SelectionSet.outline]
  refine .bind (leads_eat (.keyword _)) fun conditioned => .ite (fun _ => ?_) fun _ => ?_
  · exact .bind (adds_name.leads within) fun condition => inlineFragment (some condition)
  · refine .peek (fun _ => rfl) fun opens => .peek (fun _ => rfl) fun directed => ?_
    refine .ite (fun _ => ?_) fun _ => ?_
    · exact (inlineFragment none).strengthen fun _ laid => laid.kept
    · refine .bind (adds_name.leads within) fun name => ?_
      refine .bind (adds_directives.leads within) fun directives => leads_spanned fun _ => ?_
      simp [Selection.outline]

theorem adds_selection
    (adds : Adds source limit true inner fun selections => [selections.outline]) :
    Adds source limit true (selection inner) fun selection => [selection.outline] := by
  refine .production fun room within start => .bind (leads_eatMark .spread) fun spreads => ?_
  refine .ite (fun isSpread => ?_) fun _ => (adds_fieldSelection adds).leads within
  rw [isSpread]
  exact leads_spreadSelection adds within

end Selections

theorem leads_takeSetId : Leads (·.Laid source room start moved before) takeSetId fun _ state =>
    state.Laid source room start moved before := by
  intro state result after run
  cases run
  exact ⟨[], (List.append_nil _).symm, fun _ laid => laid.congr rfl rfl rfl⟩

/-- The tokens ahead are fewer than the bound on the depth, and each selection set takes one. -/
theorem adds_selectionSetWithin {depth limit : Nat} (deep : limit < depth) :
    Adds source limit true (selectionSetWithin depth) fun selections => [selections.outline] := by
  induction depth generalizing limit with
  | zero => exact absurd deep (Nat.not_lt_zero _)
  | succ depth ih =>
      refine .production fun room within start => .bind leads_takeSetId fun id => ?_
      refine .bind (leads_expect (.punctuator _)) fun isOpen => .ite (fun _ => ?_) fun notOpen => ?_
      · have items : Leads (·.Laid source room start true [])
            (itemsThrough .closeBrace (selection (selectionSetWithin depth))) fun items state =>
              state.Laid source room start true (items.map Selection.outline) := by
          -- The opening brace was one of the tokens that there was room for.
          cases room with
          | zero =>
              exact .never ((keeps_selection (keeps_selectionSetWithin depth)).itemsThrough _)
                fun state laid => absurd (laid.consumed rfl).2 (Nat.not_lt_zero _)
          | succ room =>
              have inner := adds_selection (ih (show room < depth by omega))
              refine .weaken (.strengthen ((inner.itemsThrough .closeBrace).leads (Nat.le_refl _))
                fun _ laid => laid.narrowed) fun items _ laid => ?_
              rw [List.map_eq_flatMap]
              exact laid.widened
        refine .bind (items.strengthen fun _ holds => holds.2) fun items => ?_
        refine leads_spanned fun _ => ?_
        simp [SelectionSet.outline, Selection.setOutline, Selection.outlines_eq]
      · exact .strengthen (leads_spanned fun _ => rfl) fun _ holds => absurd holds.1 notOpen

theorem adds_selectionSet :
    Adds source limit true selectionSet fun selections => [selections.outline] := by
  refine AddsFrom.adds (.of_fresh fun first room within fewer => ?_)
  refine .look (fun _ => rfl) fun depth => ?_
  by_cases deep : room < depth
  · have adds := @adds_selectionSetWithin source depth room deep
    exact (adds room (Nat.le_refl _) first.current.span.start false []).strengthen
      fun _ holds => holds.1.2.1
  · refine .never (keeps_selectionSetWithin depth) ?_
    rintro state ⟨⟨rfl, -⟩, rfl⟩
    omega

theorem adds_operationHead : AddsFrom TokenKind.IsSolid source limit false operationHead
    fun head => head.2.toList.map .name := by
  intro room within origin moved before
  refine .peek (fun _ => rfl) fun opens => .ite (fun _ => ?_) fun _ => ?_
  · exact .pure fun _ holds => by simpa using holds.1
  · refine .peek (fun _ => rfl) fun kind => .bind leads_advance_mark fun _ => ?_
    refine .peek (fun _ => rfl) fun next => .ite (fun _ => ?_) fun _ => ?_
    · exact .bind (adds_name.leads within) fun name => .pure fun _ laid => laid.forget moved
    · refine .pure fun _ laid => ?_
      simpa using laid.forget moved

theorem adds_operation : AddsFrom TokenKind.IsSolid source limit true operation
    fun definition => [definition.outline] := by
  refine .production fun room within start => .bind (adds_operationHead.leads within) fun head => ?_
  rcases head with ⟨kind, name⟩
  refine .bind ((adds_variableDefinition.optionalItems _ _).leads within) fun definitions => ?_
  refine .bind (adds_directives.leads within) fun directives => ?_
  refine .bind (adds_selectionSet.leads within) fun selections => leads_spanned fun _ => ?_
  simp [OperationDefinition.outline, List.map_eq_flatMap]

theorem adds_fragment : AddsFrom TokenKind.IsSolid source limit true fragment
    fun definition => [definition.outline] := by
  refine .production fun room within start => .bind leads_advance_mark fun _ => ?_
  refine .bind (adds_name.leads within) fun name => .bind (leads_expectWord _) fun _ => ?_
  refine .bind (adds_name.leads within) fun typeCondition => ?_
  refine .bind (adds_directives.leads within) fun directives => ?_
  refine .bind (adds_selectionSet.leads within) fun selections => leads_spanned fun _ => ?_
  simp [FragmentDefinition.outline]

/-! ## Documents -/

/-- The description of a definition that takes none is no part of it. -/
theorem leads_undescribed {γ : Type} {parser : Parser γ} {definition : γ → Definition}
    (adds : AddsFrom TokenKind.IsSolid source limit true parser
      fun result => [(definition result).outline])
    (within : room ≤ limit) {opening : TokenKind} (solid : opening.IsSolid)
    {description : Option Description} :
    Leads (Opens source room start description opening)
      (do return some (definition (← parser))) fun result state =>
        state.Laid source room start true (result.toList.map Definition.outline) := by
  have run := adds room within start false (description.toList.map Description.outline)
  refine .bind (run.strengthen fun state holds => ⟨holds.1.1, holds.2 ▸ solid⟩) fun result => ?_
  refine .pure fun state laid => ?_
  exact laid.sublist (List.sublist_append_right _ _)

theorem leads_definitionAfter (description : Option Description) (within : room ≤ limit) :
    Leads (fun state =>
        state.Laid source room start false (description.toList.map Description.outline) ∧
          startsAt description state = start) (definitionAfter description)
      fun result state =>
        state.Laid source room start true (result.toList.map Definition.outline) := by
  have ofType {keyword : Keyword} :
      Leads (Opens source room start description (.keyword keyword))
        (do return some (.type (← typeDefinition keyword description)))
        fun result state =>
          state.Laid source room start true (result.toList.map Definition.outline) :=
    .bind (leads_typeDefinition within) fun _ => .pure fun _ laid => laid
  refine .look (fun _ => rfl) fun kind => ?_
  split
  · exact leads_undescribed adds_schemaDefinition within (.keyword _)
  · exact .bind (leads_directiveDefinition within) fun _ => .pure fun _ laid => laid
  · exact leads_undescribed adds_fragment within (.keyword _)
  · exact leads_undescribed adds_operation within (.keyword _)
  · exact leads_undescribed adds_operation within (.keyword _)
  · exact leads_undescribed adds_operation within (.keyword _)
  · exact leads_undescribed adds_operation within (.punctuator _)
  · exact ofType
  · exact ofType
  · exact ofType
  · exact ofType
  · exact ofType
  · exact ofType
  · exact .after_error (leads_reportCurrent _) (.pure _)
  · exact .after_error (leads_reportCurrent _) (.pure _)

theorem adds_definition? : Adds source limit true definition? fun definition =>
    definition.toList.map Definition.outline := by
  refine AddsFrom.adds (.of_fresh fun first room within _ => ?_)
  have described := @leads_description? source room first.current.span.start false []
  refine .bind (.strengthen described ?_) fun description =>
    leads_definitionAfter description within
  rintro state ⟨rfl, laid, -⟩
  exact ⟨laid, rfl⟩

theorem adds_definitionsWithin (fuel : Nat) : Adds source limit false (definitionsWithin fuel)
    fun definitions => definitions.map Definition.outline := by
  induction fuel with
  | zero =>
      intro room within origin moved before
      exact .pure fun _ laid => by simpa using laid
  | succ fuel ih =>
      intro room within origin moved before
      refine .peek (fun _ => rfl) fun isAtEnd => .ite (fun _ => ?_) fun _ => ?_
      · exact .pure fun _ laid => by simpa using laid
      · refine .bind (adds_definition?.progressing.leads within) fun first => ?_
        refine .bind (ih.leads within) fun others => .pure fun state laid => ?_
        simpa using laid.forget moved

/-- A document starts where its first token starts. -/
theorem leads_document {first : ParserState} : Leads (fun state =>
      state = first ∧ state.StandsIn source ∧ state.current.span.start ≤ Token.byteSize source)
    document fun document _ => document.outline.IsPlacedIn source := by
  refine .look (fun _ => rfl) fun start => .peek (fun _ => rfl) fun fuel => ?_
  have adds := @adds_definitionsWithin source first.upcoming.length fuel
  have leads := (adds _ (Nat.le_refl _) start false []).fact (start ≤ Token.byteSize source)
  refine .bind (leads.strengthen ?_) fun definitions => ?_
  · rintro state ⟨⟨rfl, stands, inside⟩, rfl⟩
    exact ⟨.fresh stands, inside⟩
  · refine .look (fun _ => rfl) fun span => .pure ?_
    rintro state ⟨⟨laid, inside⟩, rfl⟩
    exact .node (Nat.le_max_right _ _) (Nat.max_le.mpr ⟨laid.stands.inside, inside⟩)
      (laid.between.mono (Nat.le_max_left _ _)) laid.placed

end Productions

theorem standsIn_start (source : String) : (start (Token.scan source)).StandsIn source.toList ∧
    (start (Token.scan source)).current.span.start ≤ Token.byteSize source.toList := by
  have isAt := isAt_start source
  have ordered := Token.scanFrom_ordered 0 source.toList
  rcases Token.exists_scan_eq source with ⟨last, ends, -⟩
  cases scanned : Token.scan source with
  | nil => simp [scanned] at ends
  | cons first rest =>
      rw [scanned] at isAt
      refine ⟨⟨⟨_, isAt⟩, scanned ▸ ordered, ?_, Nat.zero_le _, Nat.zero_le _⟩, ?_⟩
      · exact fun token member => Token.fitsIn_of_mem_scan (scanned ▸ member)
      · have first := Token.head_scanFrom_le scanned
        rwa [Nat.zero_add] at first

end Parser

namespace Document

/-- A source without errors places its document: all parts in the source and in what they belong to,
one behind the other, and the names over their texts. -/
theorem isPlacedIn_of_parse {source : String} {parsed : ParsedDocument}
    (parses : parse source = .ok parsed) (quiet : parsed.hasErrors = false) :
    parsed.document.outline.IsPlacedIn source.toList := by
  rcases exists_quiet_run parses quiet with ⟨after, run, nothing⟩
  rcases Parser.leads_document _ _ _ run with ⟨found, same, places⟩
  rw [diagnostics_start, List.nil_append, nothing] at same
  exact places same.symm ⟨rfl, Parser.standsIn_start source⟩

namespace Spaced

/-- Definitions with and without descriptions, and a variable with a comment after its sign. -/
def source : String :=
  "\"All\" type Query @a(b: 1.5) \x7b \"\"\"One\"\"\" f(x: [Int!]! = [\x7by: E\x7d]): Query! \x7d
    query A($v: Int = 2 @c) @d \x7b g: f(x: $ # value
      v) @e \x7b ...F ... on Query @g \x7b f \x7d \x7d \x7d # end"

theorem places_variable : ∃ parsed, parse source = .ok parsed ∧ parsed.hasErrors = false ∧
    parsed.document.outline.IsPlacedIn source.toList := by
  have accepted : (parse source).toOption.any (fun parsed => !parsed.hasErrors) = true := by
    decide +kernel
  cases parses : parse source with
  | error fault =>
      rw [parses] at accepted
      cases accepted
  | ok parsed =>
      rw [parses] at accepted
      have quiet : parsed.hasErrors = false := by simpa [Except.toOption] using accepted
      exact ⟨parsed, rfl, quiet, isPlacedIn_of_parse parses quiet⟩

end Spaced

end Document
end GraphQL

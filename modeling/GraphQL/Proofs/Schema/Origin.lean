import GraphQL.Proofs.Parsing.Correctness
import GraphQL.Proofs.Parsing.Yielding
import GraphQL.Proofs.Schema.Definition
import GraphQL.Proofs.Schema.Writing

/-!
# Definitions that were read can be written

The definitions of a source that is read without errors have words for names, types and defaults that
have a text, and trimmed descriptions that end no block string.
-/

namespace GraphQL

open Token (AllScanned IsWordText)

/-! ## Definitions -/

theorem inputsWritable_inputValues {definitions : List InputValueDefinition}
    (writable : ∀ definition ∈ definitions, definition.toInputValue.IsWritable) :
    InputsWritable (inputValues definitions) where
  distinct := OrderedMap.nodup_keys_ofPairs _
  named := by
    intro entry member
    rcases List.mem_map.mp (OrderedMap.mem_of_mem_ofPairs member) with ⟨definition, _, rfl⟩
    rfl
  writable := by
    intro entry member
    rcases List.mem_map.mp (OrderedMap.mem_of_mem_ofPairs member) with ⟨definition, known, rfl⟩
    exact writable definition known

theorem outputsWritable_outputFields {definitions : List FieldDefinition}
    (writable : ∀ definition ∈ definitions, definition.toOutputField.IsWritable) :
    OutputsWritable (outputFields definitions) where
  distinct := OrderedMap.nodup_keys_ofPairs _
  named := fun _ member => Schema.name_of_mem_outputFields member
  writable := by
    intro entry member
    rcases List.mem_map.mp (OrderedMap.mem_of_mem_ofPairs member) with ⟨definition, known, rfl⟩
    exact writable definition known

/-- The body can be written, if it is no union without members. -/
def TypeBody.IsWritable (body : TypeBody) : Prop :=
  body.toForm ≠ .union [] → body.toForm.IsWritable

/-- What the definition says can be written. -/
def Definition.IsWritable : Definition → Prop
  | .schema definition => ∀ operation ∈ definition.operations, IsWordText operation.type.text
  | .type definition =>
      definition.toSchemaType.form ≠ .union [] → definition.toSchemaType.IsWritable
  | .directive definition => definition.toSchemaDirective.IsWritable
  | _ => True

/-- What is known of a definition that was read: it can be written, and an operation or a fragment is
spelled by tokens that were scanned. -/
def Definition.IsRead (definition : Definition) : Prop :=
  definition.IsWritable ∧ (definition.isExecutable = true →
    ∃ tokens, AllScanned tokens ∧ Grammar.SpellsExecutable tokens definition)

namespace Parser

variable {given : Prop}

theorem descriptionWritable_of_isQuoted {token : Token} (quoted : token.IsQuoted) {text : String}
    (reads : token.text? = some text) (isString : token.kind = .string ∨ token.kind = .blockString) :
    DescriptionWritable (some (String.ofList (Text.trim
      (bodyBetween (if token.kind == .string then 1 else 3) text)))) := by
  rintro _ ⟨⟩
  rw [String.toList_ofList]
  refine ⟨Text.StaysOpen.trim ?_, Text.isTrimmed_trim _⟩
  rcases isString with isString | isString
  · rcases quoted.1 isString text reads with ⟨body, same, stays⟩
    rw [isString]
    simpa [bodyBetween, same] using stays
  · rcases quoted.2 isString text reads with ⟨body, same, stays⟩
    rw [isString]
    simpa [bodyBetween, same] using stays

theorem yields_description? : Yields given description? fun description =>
    DescriptionWritable (descriptionText description) := by
  refine Reads.look looks_currentSpan fun span => .look looks_kind fun kind =>
    .ite (fun isString => ?_) fun _ => .pure fun _ _ _ _ scanned => ⟨scanned, nofun⟩
  refine .bind reads_currentText fun text => .bind reads_advance fun _ => .pure ?_
  rintro _ tokens rfl _ ⟨rfl, reads⟩ isHead _ _ scanned
  refine ⟨scanned.tail, ?_⟩
  simp only [Bool.or_eq_true, beq_iff_eq] at isString
  cases tokens with
  | nil => rcases isString with isString | isString <;> rw [isString] at isHead <;> cases isHead
  | cons token rest =>
      obtain rfl : kind = token.kind := isHead
      exact descriptionWritable_of_isQuoted (scanned token List.mem_cons_self).2 (reads _ _ rfl)
        isString

theorem yields_inputValueDefinition :
    Yields given inputValueDefinition fun definition => definition.toInputValue.IsWritable := by
  refine .look looks_position fun start => .bind yields_description? fun description => ?_
  refine .bind yields_name fun name => .skip (yields_expectMark .colon) fun _ => ?_
  refine .bind yields_typeExpression fun type => .bind yields_defaultValue fun default? => ?_
  refine .skip yields_directives fun directives => yields_spanned start ?_
  rintro ⟨⟨⟨⟨_, described⟩, named⟩, typed⟩, defaulted⟩ span
  exact ⟨named, typed, defaulted, described⟩

theorem yields_argumentDefinitions : Yields given argumentDefinitions fun definitions =>
    ∀ definition ∈ definitions, definition.toInputValue.IsWritable :=
  yields_inputValueDefinition.optionalItems .openParen .closeParen

theorem yields_fieldDefinition :
    Yields given fieldDefinition fun definition => definition.toOutputField.IsWritable := by
  refine .look looks_position fun start => .bind yields_description? fun description => ?_
  refine .bind yields_name fun name => .bind yields_argumentDefinitions fun arguments => ?_
  refine .skip (yields_expectMark .colon) fun _ => .bind yields_typeExpression fun type => ?_
  refine .skip yields_directives fun directives => yields_spanned start ?_
  rintro ⟨⟨⟨⟨_, described⟩, named⟩, argued⟩, typed⟩ span
  exact ⟨named, typed, inputsWritable_inputValues argued, described⟩

theorem yields_fieldDefinitions : Yields given fieldDefinitions fun definitions =>
    ∀ definition ∈ definitions, definition.toOutputField.IsWritable :=
  yields_fieldDefinition.optionalItems .openBrace .closeBrace

theorem yields_enumValueDefinition :
    Yields given enumValueDefinition fun definition => definition.toEnumValue.IsWritable := by
  refine .look looks_position fun start => .bind yields_description? fun description => ?_
  refine .bind yields_name fun name => .skip yields_directives fun directives =>
    yields_spanned start ?_
  rintro ⟨⟨_, described⟩, named⟩ span
  exact ⟨named, described⟩

theorem yields_implementedInterfaces : Yields given implementedInterfaces fun names =>
    ∀ name ∈ names, IsWordText name.text := by
  refine .skip (yields_eat (by simp)) fun _ => .ite (fun _ => ?_) fun _ => .pure fun _ => by simp
  exact .skip (yields_eat (by simp)) fun _ => yields_name.separatedItems .ampersand

theorem yields_unionMembers : Yields given unionMembers fun names =>
    ∀ name ∈ names, IsWordText name.text := by
  refine .skip (yields_eat (by simp)) fun _ => .ite (fun _ => ?_) fun _ => .pure fun _ => by simp
  exact .skip (yields_eat (by simp)) fun _ => yields_name.separatedItems .pipe

theorem yields_typeBody (keyword : Keyword) :
    Yields given (typeBody keyword) fun body => body.2.IsWritable := by
  unfold typeBody
  split
  · refine .bind yields_implementedInterfaces fun implements => .skip yields_directives fun _ =>
      .bind yields_fieldDefinitions fun fields => .pure ?_
    rintro ⟨⟨_, named⟩, fielded⟩ _
    exact ⟨outputsWritable_outputFields fielded, List.forall_mem_map.mpr named⟩
  · refine .skip yields_directives fun _ => .bind yields_unionMembers fun members => .pure ?_
    rintro ⟨_, named⟩ filled
    exact ⟨fun none => filled (congrArg TypeForm.union none), List.forall_mem_map.mpr named⟩
  · refine .skip yields_directives fun _ =>
      .bind (yields_enumValueDefinition.optionalItems .openBrace .closeBrace) fun values => .pure ?_
    rintro ⟨_, valued⟩ _
    exact List.forall_mem_map.mpr valued
  · refine .skip yields_directives fun _ =>
      .bind (yields_inputValueDefinition.optionalItems .openBrace .closeBrace) fun fields => .pure ?_
    rintro ⟨_, fielded⟩ _
    exact inputsWritable_inputValues fielded
  · exact .skip yields_directives fun _ => .pure fun _ _ => trivial
  · refine .bind yields_implementedInterfaces fun implements => .skip yields_directives fun _ =>
      .bind yields_fieldDefinitions fun fields => .pure ?_
    rintro ⟨⟨_, named⟩, fielded⟩ _
    exact ⟨outputsWritable_outputFields fielded, List.forall_mem_map.mpr named⟩

theorem yields_startWith (description : Option Description) :
    Yields given (startWith description) fun _ => True := by
  unfold startWith
  split
  · exact .pure fun _ => trivial
  · exact .look looks_get fun _ => .pure fun _ => trivial

theorem yields_typeDefinition (keyword : Keyword) (description : Option Description) :
    Yields (given ∧ DescriptionWritable (descriptionText description))
      (typeDefinition keyword description) fun definition =>
        (Definition.type definition).IsWritable := by
  refine .skip (yields_startWith description) fun start => .skip yields_advance fun _ => ?_
  refine .bind yields_name fun name => .bind (yields_typeBody keyword) fun body =>
    yields_spanned start ?_
  rintro ⟨⟨⟨_, described⟩, named⟩, formed⟩ span filled
  exact ⟨named, formed filled, described⟩

theorem yields_rootOperation? : Yields given rootOperation? fun operation =>
    ∀ root, operation = some root → IsWordText root.type.text := by
  refine .look looks_position fun start => .look looks_kind fun kind => ?_
  split
  · exact .of_error (reads_reportCurrent _) (.bind reads_advance fun _ => .pure fun _ _ _ => trivial)
  · refine .skip yields_advance fun _ => .skip (yields_expectMark .colon) fun _ => ?_
    refine .bind yields_name fun name => .look (looks_spanFrom start) fun span => .pure ?_
    rintro ⟨_, named⟩ _ ⟨⟩
    exact named

theorem yields_schemaDefinition : Yields given schemaDefinition fun definition =>
    (Definition.schema definition).IsWritable := by
  refine .look looks_position fun start => .skip yields_advance fun _ => ?_
  refine .skip yields_directives fun _ => .skip (yields_expectMark .openBrace) fun _ => ?_
  refine .bind (yields_rootOperation?.itemsThrough .closeBrace) fun operations =>
    yields_spanned start ?_
  rintro ⟨_, named⟩ span operation member
  rcases List.mem_filterMap.mp member with ⟨found, known, isFound⟩
  exact named found known operation isFound

/-- One location at least, or an error. -/
theorem yields_directiveLocationsWithin (bound : Nat) :
    Yields (given ∧ 0 < bound) (directiveLocationsWithin bound) fun locations =>
      locations ≠ [] := by
  have further (fuel : Nat) : Yields given (directiveLocationsWithin fuel) fun _ => True := by
    induction fuel with
    | zero => exact .pure fun _ => trivial
    | succ fuel ih =>
        refine .skip yields_currentText fun text => .look looks_kind fun kind => ?_
        split
        · refine .skip yields_advance fun _ => .skip (yields_eat (by simp)) fun _ => .ite (fun _ => ?_)
            fun _ => .pure fun _ => trivial
          exact .skip ih fun _ => .pure fun _ => trivial
        · exact .of_error (reads_reportCurrent _) (.pure fun _ => trivial)
  cases bound with
  | zero => exact .pure fun isGiven => absurd isGiven.2 (Nat.lt_irrefl 0)
  | succ fuel =>
      refine .skip yields_currentText fun text => .look looks_kind fun kind => ?_
      split
      · refine .skip yields_advance fun _ => .skip (yields_eat (by simp)) fun _ => .ite (fun _ => ?_)
          fun _ => .pure fun _ => by simp
        exact .skip ((further fuel).under And.left) fun _ => .pure fun _ => by simp
      · exact .of_error (reads_reportCurrent _) (.pure fun _ => trivial)

theorem yields_directiveDefinition (description : Option Description) :
    Yields (given ∧ DescriptionWritable (descriptionText description))
      (directiveDefinition description) fun definition =>
        (Definition.directive definition).IsWritable := by
  refine .skip (yields_startWith description) fun start => .skip yields_advance fun _ => ?_
  refine .skip (yields_expectMark .atSign) fun _ => .bind yields_name fun name => ?_
  refine .bind yields_argumentDefinitions fun arguments => .skip (yields_eat (by simp)) fun _ => ?_
  refine .skip (yields_expect (by simp)) fun _ => .skip (yields_eat (by simp)) fun _ => ?_
  refine .bind yields_depthBound fun bound => .bind (yields_directiveLocationsWithin bound)
    fun locations => yields_spanned start ?_
  rintro ⟨⟨⟨⟨⟨_, described⟩, named⟩, argued⟩, _⟩, located⟩ span
  exact ⟨named, inputsWritable_inputValues argued, located, described⟩

/-- A definition that was found was read. -/
def FoundRead (found : Option Definition) : Prop :=
  ∀ definition, found = some definition → definition.IsRead

theorem yields_definitionAfter (description : Option Description) :
    Yields (given ∧ DescriptionWritable (descriptionText description))
      (definitionAfter description) FoundRead := by
  have declared {γ : Type} {parser : Parser γ} {definition : γ → Definition} {kind : TokenKind}
      (declares : ∀ value, (definition value).isExecutable = false)
      (yields : Yields (given ∧ DescriptionWritable (descriptionText description)) parser fun value =>
        (definition value).IsWritable) :
      Reads (do return some (definition (← parser))) fun tokens result rest =>
        kind = Token.headKind tokens → given ∧ DescriptionWritable (descriptionText description) →
          AllScanned tokens → AllScanned rest ∧ FoundRead result := by
    have found : Yields (given ∧ DescriptionWritable (descriptionText description))
        (do return some (definition (← parser))) FoundRead :=
      .bind yields fun value => .pure fun isGiven _ same => Option.some.inj same ▸ ⟨isGiven.2,
        fun executable => absurd executable (Bool.eq_false_iff.mp (declares value))⟩
    exact Reads.weaken found fun _ _ _ holds _ => holds
  have ofOperation {kind : TokenKind}
      (opens : kind = .punctuator .openBrace ∨ ∃ operation, operationKind? kind = some operation) :
      Reads (do return some (.operation (← operation))) fun tokens result rest =>
        kind = Token.headKind tokens → given ∧ DescriptionWritable (descriptionText description) →
          AllScanned tokens → AllScanned rest ∧ FoundRead result := by
    refine .bind reads_operation fun definition => .pure ?_
    rintro rest tokens spelled rfl _ scanned
    rcases spelled opens with ⟨used, rfl, spells⟩
    refine ⟨scanned.mono (by simp), ?_⟩
    rintro _ ⟨⟩
    exact ⟨trivial, fun _ => ⟨used, scanned.mono (by simp), .operation spells⟩⟩
  have nothing (title : String) {post : List Token → Option Definition → List Token → Prop} :
      Reads (do reportCurrent title; return none) post :=
    .after_error (reads_reportCurrent title) (.pure fun _ => trivial)
  refine Reads.look looks_kind fun kind => ?_
  split
  · exact declared (fun _ => rfl) yields_schemaDefinition
  · exact declared (fun _ => rfl) (yields_directiveDefinition description)
  · refine .bind reads_fragment fun definition => .pure ?_
    rintro rest tokens spelled isHead _ scanned
    rcases spelled isHead.symm with ⟨used, rfl, spells⟩
    refine ⟨scanned.mono (by simp), ?_⟩
    rintro _ ⟨⟩
    exact ⟨trivial, fun _ => ⟨used, scanned.mono (by simp), .fragment spells⟩⟩
  · exact ofOperation (.inr ⟨_, rfl⟩)
  · exact ofOperation (.inr ⟨_, rfl⟩)
  · exact ofOperation (.inr ⟨_, rfl⟩)
  · exact ofOperation (.inl rfl)
  · exact declared (fun _ => rfl) (yields_typeDefinition _ description)
  · exact declared (fun _ => rfl) (yields_typeDefinition _ description)
  · exact declared (fun _ => rfl) (yields_typeDefinition _ description)
  · exact declared (fun _ => rfl) (yields_typeDefinition _ description)
  · exact declared (fun _ => rfl) (yields_typeDefinition _ description)
  · exact declared (fun _ => rfl) (yields_typeDefinition _ description)
  · exact nothing _
  · exact nothing _

theorem yields_definition? : Yields given definition? FoundRead :=
  .bind yields_description? fun description => yields_definitionAfter description

theorem yields_definitionsWithin (fuel : Nat) :
    Yields given (definitionsWithin fuel) fun definitions =>
      ∀ definition ∈ definitions, definition.IsRead := by
  induction fuel with
  | zero => exact .pure fun _ => by simp
  | succ fuel ih =>
      refine .look looks_isAtEnd fun _ => .ite (fun _ => .pure fun _ => by simp) fun _ => ?_
      refine .bind yields_definition?.progressing fun first => .bind (ih.under And.left) fun others =>
        .pure ?_
      rintro ⟨⟨_, found⟩, all⟩ definition member
      rcases List.mem_append.mp member with member | member
      · exact found definition (Option.mem_toList.mp member)
      · exact all definition member

theorem yields_document : Yields given document fun document =>
    ∀ definition ∈ document.definitions, definition.IsRead := by
  refine .look looks_position fun start => .bind yields_depthBound fun bound => ?_
  exact .bind (yields_definitionsWithin bound) fun definitions => yields_spanned start fun holds _ =>
    holds.2

end Parser

theorem Token.allScanned_beforeEnd (source : String) : AllScanned (beforeEnd source) := by
  intro token member
  have scanned : token ∈ scan source := (List.takeWhile_prefix _).subset member
  exact ⟨isWord_of_mem_scan scanned, isQuoted_of_mem_scanFrom scanned⟩

namespace Document

variable {source : String} {parsed : ParsedDocument} (parses : parse source = .ok parsed)
  (quiet : parsed.hasErrors = false)

include parses quiet

theorem isRead_of_parse : ∀ definition ∈ parsed.document.definitions, definition.IsRead := by
  rcases exists_of_parse Parser.yields_document parses quiet with ⟨_, holds⟩
  exact (holds trivial (Token.allScanned_beforeEnd source)).2

/-- Whatever a source defines without errors can be written. -/
theorem isWritable_of_parse :
    ∀ definition ∈ parsed.document.definitions, definition.IsWritable :=
  fun definition member => (isRead_of_parse parses quiet definition member).1

end Document

end GraphQL

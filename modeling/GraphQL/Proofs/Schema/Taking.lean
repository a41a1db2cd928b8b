import GraphQL.Proofs.OrderedMap
import GraphQL.Proofs.Parsing.Completeness
import GraphQL.Proofs.Schema.Grammar

/-!
# What the parsers of type system definitions take

One lemma a production: the parser takes the tokens of a part of a printed schema, and the
definition that it gives says that part. After a definition no punctuator follows, which is all that
the definition before it asks for.
-/

namespace GraphQL

open Grammar

/-! ## What does not depend on places -/

theorem TypeExpression.toTypeRef_unplaced (type : TypeExpression) :
    type.unplaced.toTypeRef = type.toTypeRef := by
  induction type with
  | named name => rfl
  | list item span ih => exact congrArg TypeRef.list ih
  | nonNull inner span ih => exact congrArg TypeRef.nonNull ih

namespace Literal

mutual

theorem toJson_unplaced (literal : Literal) : literal.unplaced.toJson = literal.toJson := by
  cases literal with
  | list items span => exact congrArg Json.array (itemsToJson_unplaced items)
  | object fields span =>
      exact congrArg (Json.object ∘ OrderedMap.ofPairs) (fieldsToJson_unplaced fields)
  | _ => rfl

theorem itemsToJson_unplaced (items : List Literal) :
    itemsToJson (itemsUnplaced items) = itemsToJson items := by
  cases items with
  | nil => rfl
  | cons item rest => rw [itemsUnplaced, itemsToJson, itemsToJson, toJson_unplaced item,
      itemsToJson_unplaced rest]

theorem fieldsToJson_unplaced (fields : List (Name × Literal)) :
    fieldsToJson (fieldsUnplaced fields) = fieldsToJson fields := by
  match fields with
  | [] => rfl
  | (name, value) :: rest =>
      rw [fieldsUnplaced, fieldsToJson, fieldsToJson, toJson_unplaced value,
        fieldsToJson_unplaced rest]
      rfl

end

end Literal

theorem text_eq_of_unplaced_eq {name other : Name} (same : name.unplaced = other.unplaced) :
    name.text = other.text := by
  change name.unplaced.text = other.unplaced.text
  rw [same]

theorem toTypeRef_eq_of_unplaced_eq {type other : TypeExpression}
    (same : type.unplaced = other.unplaced) : type.toTypeRef = other.toTypeRef := by
  rw [← type.toTypeRef_unplaced, same, other.toTypeRef_unplaced]

theorem toJson_eq_of_unplaced_eq {default? other? : Option Literal}
    (same : default?.map Literal.unplaced = other?.map Literal.unplaced) :
    default?.map Literal.toJson = other?.map Literal.toJson := by
  have erased (literal? : Option Literal) :
      literal?.map Literal.toJson = (literal?.map Literal.unplaced).map Literal.toJson := by
    rw [Option.map_map]
    exact congrArg (literal?.map ·) (funext fun literal => (literal.toJson_unplaced).symm)
  rw [erased, same, ← erased]

theorem deprecationReason_unplaced (directives : List Directive) :
    deprecationReason (directives.map Directive.unplaced) = deprecationReason directives := by
  have reason (arguments : List Argument) :
      ((arguments.map Argument.unplaced).find? (·.name.text == "reason")) =
        (arguments.find? (·.name.text == "reason")).map Argument.unplaced := by
    rw [List.find?_map]
    rfl
  have deprecated : (directives.map Directive.unplaced).find? (·.name.text == "deprecated") =
      (directives.find? (·.name.text == "deprecated")).map Directive.unplaced := by
    rw [List.find?_map]
    rfl
  unfold deprecationReason
  rw [deprecated]
  cases directives.find? (·.name.text == "deprecated") with
  | none => rfl
  | some directive =>
      simp only [Option.map_some, Option.bind_eq_bind, Option.bind_some, Directive.unplaced, reason]
      cases directive.arguments.find? (·.name.text == "reason") with
      | none => rfl
      | some argument =>
          rcases argument with ⟨name, value, span⟩
          cases value <;> rfl

theorem deprecationReason_eq_of_unplaced_eq {directives others : List Directive}
    (same : directives.map Directive.unplaced = others.map Directive.unplaced) :
    deprecationReason directives = deprecationReason others := by
  rw [← deprecationReason_unplaced, same, deprecationReason_unplaced]

namespace Parser

/-! ## Descriptions and values -/

section

variable {used rest : List Token} {token : Token}

theorem takes_description? {description : Option String}
    (spelled : SpellsDescription used description) (named : (Token.headKind rest).isName = true) :
    Takes description? (used ++ rest) (descriptionText · = description) rest := by
  cases spelled with
  | absent =>
      refine .look looks_currentSpan fun span _ => .look looks_kind fun kind isKind =>
        .ite_neg ?_ (.pure rfl)
      rintro isString
      rw [isKind, List.nil_append, Bool.or_eq_true, beq_iff_eq, beq_iff_eq] at isString
      rcases isString with isString | isString <;> rw [isString] at named <;> cases named
  | quoted isString reads =>
      refine .look looks_currentSpan fun span _ => .look looks_kind fun kind isKind => ?_
      obtain rfl : kind = .string := isKind.trans isString
      exact .ite_pos rfl (.bind (takes_currentText reads) fun _ same => .bind takes_advance
        fun _ _ => .pure (by rw [same]; rfl))
  | block isBlock reads =>
      refine .look looks_currentSpan fun span _ => .look looks_kind fun kind isKind => ?_
      obtain rfl : kind = .blockString := isKind.trans isBlock
      exact .ite_pos rfl (.bind (takes_currentText reads) fun _ same => .bind takes_advance
        fun _ _ => .pure (by rw [same]; rfl))

/-- A described part starts with a string or a name. -/
theorem headKind_of_described {description : Option String}
    (spelled : SpellsDescription used description) (isName : token.kind.isName = true)
    (mark : Punctuator) : Token.headKind (used ++ token :: rest) ≠ .endOfInput ∧
      Token.headKind (used ++ token :: rest) ≠ .punctuator mark := by
  cases spelled with
  | absent => exact TokenKind.ne_of_isName isName mark
  | quoted isString => simp [Token.headKind, isString]
  | block isBlock => simp [Token.headKind, isBlock]

theorem avoids_of_described {description : Option String} {marks : List Punctuator}
    (spelled : SpellsDescription used description) (isName : token.kind.isName = true) :
    Avoids marks (used ++ token :: rest) :=
  fun mark _ => (headKind_of_described spelled isName mark).2

theorem takes_startWith (description : Option Description) {tokens : List Token} :
    Takes (startWith description) tokens (fun _ => True) tokens := by
  cases description with
  | none => exact fun state isAt => ⟨state.current.span.start, state, rfl, rfl, isAt, trivial⟩
  | some description => exact .pure trivial

end

/-- Items that each start with a description and a name. -/
theorem TakesEach.of_described {α β : Type} {item : Parser α} {closing : Punctuator}
    {spells : List Token → β → Prop} {erase : α → β} {marks : List Punctuator}
    (takes : ∀ {used rest value}, spells used value → Avoids marks rest →
      Takes item (used ++ rest) (erase · = value) rest)
    (described : ∀ {used value}, spells used value → ∃ description start token tail,
      SpellsDescription start description ∧ token.kind.isName = true ∧ used = start ++ token :: tail)
    (other : closing ∉ marks) : TakesEach item closing spells erase id (Avoids marks) where
  takes := takes
  starts := by
    intro used value spelled
    rcases described spelled with ⟨description, start, token, tail, described, isName, rfl⟩
    exact headKind_of_described described isName _
  continues := by
    intro used value rest spelled
    rcases described spelled with ⟨description, start, token, tail, described, isName, rfl⟩
    rw [List.append_assoc]
    exact avoids_of_described described isName
  ends := fun closes => .of_mark closes other

/-- What may not follow an input value. -/
def inputMarks : List Punctuator :=
  [.bang, .equals, .atSign, .openParen]

theorem takes_inputValueDefinition {used rest : List Token} {value : InputValue}
    (spelled : SpellsInputValue used value) (follows : Avoids inputMarks rest) :
    Takes inputValueDefinition (used ++ rest) (·.toInputValue = value) rest := by
  rcases spelled with ⟨described, isName, isColon, typed, defaulted⟩
  simp only [List.append_assoc, List.cons_append]
  refine .look looks_position fun start _ => ?_
  refine .bind (takes_description? described isName.1) fun description sameDescription => ?_
  refine .bind (takes_name isName) fun name sameName => ?_
  refine .bind (takes_expectMark isColon) fun _ _ => ?_
  refine .bind (takes_typeExpression typed ?_) fun type sameType => ?_
  · cases defaulted with
    | absent => exact follows.mono (by decide)
    | present isEquals => exact .of_mark isEquals (by decide)
  refine .bind (takes_defaultValue defaulted (follows.mono (by decide))) fun default? sameDefault => ?_
  refine .bind (takes_directives .nil (follows.mono (by decide))) fun directives _ =>
    takes_spanned start fun span => ?_
  simp only [InputValueDefinition.toInputValue, sameDescription, text_eq_of_unplaced_eq sameName,
    toTypeRef_eq_of_unplaced_eq sameType, toJson_eq_of_unplaced_eq sameDefault]

theorem takesEach_inputValueDefinition {closing : Punctuator} (other : closing ∉ inputMarks) :
    TakesEach inputValueDefinition closing SpellsInputValue
      InputValueDefinition.toInputValue id (Avoids inputMarks) := by
  refine .of_described takes_inputValueDefinition ?_ other
  rintro used value ⟨described, isName, _, _, _⟩
  exact ⟨_, _, _, _, described, isName.1, rfl⟩

/-- The values are the same ones under the same names. -/
theorem inputValues_eq {definitions : List InputValueDefinition} {values : List InputValue}
    (same : definitions.map InputValueDefinition.toInputValue = values.map id) :
    inputValues definitions = OrderedMap.byName InputValue.name values := by
  rw [List.map_id] at same
  rw [inputValues, OrderedMap.byName, ← same, List.map_map]
  rfl

theorem takes_argumentDefinitions {used rest : List Token} {values : List InputValue}
    (spelled : SpellsInputValues used values)
    (follows : Token.headKind rest ≠ .punctuator .openParen) :
    Takes argumentDefinitions (used ++ rest)
      (inputValues · = OrderedMap.byName InputValue.name values) rest :=
  ((takesEach_inputValueDefinition (by decide)).optionalItems spelled follows).weaken
    fun _ => inputValues_eq

/-! ## Fields and enum values -/

def outputMarks : List Punctuator :=
  [.bang, .atSign, .openParen]

theorem takes_fieldDefinition {used rest : List Token} {field : OutputField}
    (spelled : SpellsOutputField used field) (follows : Avoids outputMarks rest) :
    Takes fieldDefinition (used ++ rest) (·.toOutputField = field) rest := by
  rcases spelled with ⟨described, isName, given, isColon, typed, directed⟩
  simp only [List.append_assoc, List.cons_append]
  refine .look looks_position fun start _ => ?_
  refine .bind (takes_description? described isName.1) fun description sameDescription => ?_
  refine .bind (takes_name isName) fun name sameName => ?_
  refine .bind (takes_argumentDefinitions given ?_) fun arguments sameArguments => ?_
  · simp [Token.headKind, show _ = _ from isColon]
  refine .bind (takes_expectMark isColon) fun _ _ => ?_
  refine .bind (takes_typeExpression typed ?_) fun type sameType => ?_
  · exact (follows.mono (by decide)).directives directed (by decide)
  refine .bind (takes_directives directed (follows.mono (by decide))) fun directives sameDirectives =>
    takes_spanned start fun span => ?_
  simp only [FieldDefinition.toOutputField, sameDescription, sameArguments,
    text_eq_of_unplaced_eq sameName, toTypeRef_eq_of_unplaced_eq sameType,
    deprecationReason_eq_of_unplaced_eq sameDirectives]

theorem takesEach_fieldDefinition :
    TakesEach fieldDefinition .closeBrace SpellsOutputField FieldDefinition.toOutputField id
      (Avoids outputMarks) := by
  refine .of_described takes_fieldDefinition ?_ (by decide)
  rintro used value ⟨described, isName, _, _, _, _⟩
  exact ⟨_, _, _, _, described, isName.1, rfl⟩

theorem takes_fieldDefinitions {used rest : List Token} {fields : List OutputField}
    (between : SpellsBetween .openBrace .closeBrace SpellsOutputField used fields)
    (follows : Token.headKind rest ≠ .punctuator .openBrace) :
    Takes fieldDefinitions (used ++ rest)
      (outputFields · = OrderedMap.byName OutputField.name fields) rest := by
  refine (takesEach_fieldDefinition.optionalItems (.present between) follows).weaken
    fun definitions same => ?_
  rw [List.map_id] at same
  rw [outputFields, OrderedMap.byName, ← same, List.map_map]
  rfl

theorem takes_enumValueDefinition {used rest : List Token} {value : EnumValue}
    (spelled : SpellsEnumValue used value) (follows : Avoids outputMarks rest) :
    Takes enumValueDefinition (used ++ rest) (·.toEnumValue = value) rest := by
  rcases spelled with ⟨described, isName, directed⟩
  simp only [List.append_assoc, List.cons_append]
  refine .look looks_position fun start _ => ?_
  refine .bind (takes_description? described isName.1) fun description sameDescription => ?_
  refine .bind (takes_name isName) fun name sameName => ?_
  refine .bind (takes_directives directed (follows.mono (by decide))) fun directives sameDirectives =>
    takes_spanned start fun span => ?_
  simp only [EnumValueDefinition.toEnumValue, sameDescription,
    text_eq_of_unplaced_eq sameName, deprecationReason_eq_of_unplaced_eq sameDirectives]

theorem takesEach_enumValueDefinition :
    TakesEach enumValueDefinition .closeBrace SpellsEnumValue EnumValueDefinition.toEnumValue id
      (Avoids outputMarks) := by
  refine .of_described takes_enumValueDefinition ?_ (by decide)
  rintro used value ⟨described, isName, _⟩
  exact ⟨_, _, _, _, described, isName.1, rfl⟩

/-! ## Names -/

theorem takes_spelledName {used rest : List Token} {text : String} (spelled : SpellsName used text) :
    Takes name (used ++ rest) (·.text = text) rest := by
  rcases spelled with ⟨token, rfl, isName⟩
  exact (takes_name isName).weaken fun _ same => text_eq_of_unplaced_eq same

theorem headKind_of_spellsSeparated {mark : Punctuator} {used rest : List Token}
    {names : List String} (named : SpellsSeparated mark SpellsName used names) :
    (Token.headKind (used ++ rest)).isName = true := by
  have first {used others : List Token} {text : String} (spelled : SpellsName used text) :
      (Token.headKind (used ++ others)).isName = true := by
    rcases spelled with ⟨token, rfl, isName⟩
    exact isName.1
  cases named with
  | last spelled => exact first spelled
  | cons spelled _ _ =>
      rw [List.append_assoc]
      exact first spelled

theorem takes_names {mark : Punctuator} {used rest : List Token} {names : List String}
    (named : SpellsSeparated mark SpellsName used names)
    (follows : Token.headKind rest ≠ .punctuator mark) :
    Takes (separatedItems mark name) (used ++ rest) (·.map Name.text = names) rest := by
  have takes : Takes (separatedItems mark name) (used ++ rest)
      (fun results => results.map Name.text = names.map id) rest :=
    takes_separatedItems named (fun spelled => takes_spelledName spelled) follows
  simpa using takes

theorem takes_implementedInterfaces {used rest : List Token} {interfaces : List String}
    (implemented : SpellsInterfaces used interfaces)
    (follows : Token.headKind rest = .punctuator .openBrace) :
    Takes implementedInterfaces (used ++ rest) (·.map Name.text = interfaces) rest := by
  cases implemented with
  | absent =>
      refine .bind (takes_eat_other ?_) fun _ isEaten => .ite_neg (by simp [isEaten]) (.pure rfl)
      rw [List.nil_append, follows]
      simp
  | present isWord named =>
      have isName : (Token.headKind (_ ++ rest)).isName = true := headKind_of_spellsSeparated named
      refine .bind (takes_eat isWord) fun _ isEaten => .ite_pos isEaten ?_
      refine .bind (takes_eatMark_other (TokenKind.ne_of_isName isName _).2) fun _ _ => ?_
      refine takes_names named ?_
      rw [follows]
      simp

/-! ## Types -/

/-- No punctuator is next. -/
def Unmarked (rest : List Token) : Prop :=
  ∀ mark, Token.headKind rest ≠ .punctuator mark

theorem Unmarked.avoids {rest : List Token} (unmarked : Unmarked rest) (marks : List Punctuator) :
    Avoids marks rest :=
  fun mark _ => unmarked mark

/-- A type has no directives where none stands. -/
theorem takes_noDirectives {rest : List Token} (follows : Avoids [.atSign, .openParen] rest) :
    Takes Parser.directives rest (fun _ => True) rest :=
  (takes_directives .nil follows).weaken fun _ _ => trivial

theorem headKind_of_spellsBetween {α : Type} {opening closing : Punctuator}
    {spells : List Token → α → Prop} {used rest : List Token} {items : List α}
    (between : SpellsBetween opening closing spells used items) :
    Token.headKind (used ++ rest) = .punctuator opening := by
  rcases between with ⟨opens, _, _⟩
  exact opens

theorem takes_typeBody {keyword : Keyword} {used rest : List Token} {form : TypeForm}
    (formed : SpellsForm keyword used form) (follows : Unmarked rest) :
    Takes (typeBody keyword) (used ++ rest) (·.2.toForm = form) rest := by
  cases formed with
  | scalar => exact .bind (takes_noDirectives (follows.avoids _)) fun _ _ => .pure rfl
  | object implemented between =>
      have opens : Token.headKind (_ ++ rest) = .punctuator .openBrace :=
        headKind_of_spellsBetween between
      rw [List.append_assoc]
      refine .bind (takes_implementedInterfaces implemented opens) fun names sameNames => ?_
      refine .bind (takes_noDirectives (.of_mark opens (by decide))) fun _ _ => ?_
      refine .bind (takes_fieldDefinitions between (follows _)) fun fields sameFields => .pure ?_
      rw [TypeBody.toForm, sameFields, sameNames]
  | interface implemented between =>
      have opens : Token.headKind (_ ++ rest) = .punctuator .openBrace :=
        headKind_of_spellsBetween between
      rw [List.append_assoc]
      refine .bind (takes_implementedInterfaces implemented opens) fun names sameNames => ?_
      refine .bind (takes_noDirectives (.of_mark opens (by decide))) fun _ _ => ?_
      refine .bind (takes_fieldDefinitions between (follows _)) fun fields sameFields => .pure ?_
      rw [TypeBody.toForm, sameFields, sameNames]
  | @union equals used members isEquals named =>
      have isName : (Token.headKind (_ ++ rest)).isName = true := headKind_of_spellsSeparated named
      refine .bind (takes_noDirectives (.of_mark isEquals (by decide))) fun _ _ => ?_
      have members : Takes unionMembers (equals :: (used ++ rest)) (·.map Name.text = members)
          rest := by
        refine .bind (takes_eatMark isEquals) fun _ isEaten => .ite_pos isEaten ?_
        refine .bind (takes_eatMark_other (TokenKind.ne_of_isName isName _).2) fun _ _ => ?_
        exact takes_names named (follows _)
      exact .bind members fun names sameNames => .pure (congrArg TypeForm.union sameNames)
  | enum between =>
      have opens : Token.headKind (_ ++ rest) = .punctuator .openBrace :=
        headKind_of_spellsBetween between
      refine .bind (takes_noDirectives (.of_mark opens (by decide))) fun _ _ => ?_
      refine .bind (takesEach_enumValueDefinition.optionalItems (.present between) (follows _))
        fun values sameValues => .pure ?_
      rw [List.map_id] at sameValues
      rw [TypeBody.toForm, sameValues]
  | inputObject between =>
      have opens : Token.headKind (_ ++ rest) = .punctuator .openBrace :=
        headKind_of_spellsBetween between
      refine .bind (takes_noDirectives (.of_mark opens (by decide))) fun _ _ => ?_
      refine .bind ((takesEach_inputValueDefinition (by decide)).optionalItems (.present between)
        (follows _)) fun fields sameFields => .pure ?_
      rw [TypeBody.toForm, inputValues_eq sameFields]

/-- The tokens of a type after its description. -/
theorem takes_typeDefinition {keyword : Keyword} {description : Option Description}
    {word token : Token} {used rest : List Token} {name : Name} {form : TypeForm}
    (isName : IsName token name) (formed : SpellsForm keyword used form)
    (follows : Unmarked rest) :
    Takes (typeDefinition keyword description) (word :: token :: (used ++ rest))
      (·.toSchemaType = { name := name.text, description := descriptionText description, form })
      rest := by
  refine .bind (takes_startWith description) fun start _ => .bind takes_advance fun _ _ => ?_
  refine .bind (takes_name isName) fun name sameName => ?_
  refine .bind (takes_typeBody formed follows) fun result sameForm => ?_
  rcases result with ⟨directives, body⟩
  refine takes_spanned start fun span => ?_
  simp only [TypeDefinition.toSchemaType, sameForm, text_eq_of_unplaced_eq sameName]

/-! ## Root types and directives -/

theorem takes_rootOperation? {used rest : List Token} {root : OperationKind × String}
    (spelled : SpellsRoot used root) :
    Takes rootOperation? (used ++ rest) (·.map RootOperation.entry = some root) rest := by
  rcases spelled with ⟨opens, isColon, isName⟩
  refine .look looks_position fun start _ => .look looks_kind fun kind isKind => ?_
  have isKind : operationKind? kind = _ := (congrArg operationKind? isKind).trans opens
  rw [isKind]
  refine .bind takes_advance fun _ _ => .bind (takes_expectMark isColon) fun _ _ => ?_
  refine .bind (takes_name isName) fun name sameName => takes_spanned start fun span => ?_
  simp only [Option.map_some, RootOperation.entry, text_eq_of_unplaced_eq sameName]

theorem takesEach_rootOperation? :
    TakesEach rootOperation? .closeBrace SpellsRoot (·.map RootOperation.entry) some
      (fun _ => True) where
  takes := fun spelled _ => takes_rootOperation? spelled
  starts := by
    rintro used root ⟨opens, _, _⟩
    rcases operationKind?_eq_some opens with isKind | isKind | isKind <;>
      simp [Token.headKind, isKind]
  continues := fun _ => trivial
  ends := fun _ => trivial

theorem takes_schemaDefinition {word : Token} {used rest : List Token}
    {operations : List (OperationKind × String)}
    (between : SpellsBetween .openBrace .closeBrace SpellsRoot used operations) :
    Takes schemaDefinition (word :: (used ++ rest))
      (·.operations.map RootOperation.entry = operations) rest := by
  rcases between with ⟨opens, each, closes⟩
  refine .look looks_position fun start _ => .bind takes_advance fun _ _ => ?_
  simp only [List.cons_append, List.append_assoc]
  refine .bind (takes_noDirectives (.of_mark opens (by decide))) fun _ _ => ?_
  refine .bind (takes_expectMark opens) fun _ _ => ?_
  refine .bind (takesEach_rootOperation?.itemsThrough each closes) fun results same =>
    takes_spanned start fun span => ?_
  have found (results : List (Option RootOperation)) :
      (results.filterMap id).map RootOperation.entry =
        (results.map (·.map RootOperation.entry)).filterMap id := by
    rw [List.map_filterMap, List.filterMap_map]
    rfl
  rw [found, same, List.filterMap_map]
  exact List.filterMap_some

theorem ofText?_text (location : DirectiveLocation) :
    DirectiveLocation.ofText? location.text = some location := by
  cases location <;> decide

theorem takes_directiveLocations {used rest : List Token} {locations : List DirectiveLocation}
    (located : SpellsSeparated .pipe SpellsLocation used locations) (follows : Unmarked rest)
    {fuel : Nat} (enough : used.length < fuel) :
    Takes (directiveLocationsWithin fuel) (used ++ rest) (· = locations) rest := by
  have first {others : List Token} {location : DirectiveLocation} {token : Token} {fuel : Nat}
      {shows : List DirectiveLocation → Prop}
      (spelled : token.kind.isName = true ∧ token.text? = some location.text)
      (takes : Takes (do
        if ← eatMark .pipe then return location :: (← directiveLocationsWithin fuel)
        else return [location]) others shows rest) :
      Takes (directiveLocationsWithin (fuel + 1)) (token :: others) shows rest := by
    refine .bind (takes_currentText spelled.2) fun text isText => .look looks_kind fun kind isKind => ?_
    have isName : kind.isName = true := isKind ▸ spelled.1
    rw [isText, ofText?_text, isName]
    exact .bind takes_advance fun _ _ => takes
  induction located generalizing fuel with
  | last spelled =>
      rcases spelled with ⟨token, rfl, spelled⟩
      obtain ⟨fuel, rfl⟩ : ∃ less, fuel = less + 1 := ⟨fuel - 1, by omega⟩
      exact first spelled (.bind (takes_eatMark_other (follows _)) fun _ isEaten =>
        .ite_neg (by simp [isEaten]) (.pure rfl))
  | cons spelled separates _ ih =>
      rcases spelled with ⟨token, rfl, spelled⟩
      simp only [List.length_append, List.length_cons, List.length_nil] at enough
      obtain ⟨fuel, rfl⟩ : ∃ less, fuel = less + 1 := ⟨fuel - 1, by omega⟩
      rw [List.append_assoc]
      refine first spelled (.bind (takes_eatMark separates) fun _ isEaten => .ite_pos isEaten ?_)
      exact .bind (ih (by omega)) fun others same => .pure (by rw [same])

theorem takes_directiveDefinition {description : Option Description} {word atSign token : Token}
    {argumentTokens repeatableTokens locationTokens rest : List Token} {preposition : Token}
    {name : Name} {arguments : List InputValue} {repeatable : Bool}
    {locations : List DirectiveLocation} (isAt : IsMark .atSign atSign) (isName : IsName token name)
    (given : SpellsInputValues argumentTokens arguments)
    (repeated : SpellsRepeatable repeatableTokens repeatable)
    (isOn : IsKeyword .onCondition preposition)
    (located : SpellsSeparated .pipe SpellsLocation locationTokens locations)
    (follows : Unmarked rest) :
    Takes (directiveDefinition description)
      (word :: atSign :: token ::
        (argumentTokens ++ (repeatableTokens ++ preposition :: (locationTokens ++ rest))))
      (·.toSchemaDirective =
        { name := name.text
          description := descriptionText description
          arguments := OrderedMap.byName InputValue.name arguments
          locations
          repeatable }) rest := by
  refine .bind (takes_startWith description) fun start _ => .bind takes_advance fun _ _ => ?_
  refine .bind (takes_expectMark isAt) fun _ _ => .bind (takes_name isName) fun name sameName => ?_
  refine .bind (takes_argumentDefinitions given ?_) fun arguments sameArguments => ?_
  · cases repeated with
    | absent => simp [Token.headKind, show _ = _ from isOn]
    | present isWord => simp [Token.headKind, show _ = _ from isWord]
  have repeats : Takes (eat (.keyword .repeatable))
      (repeatableTokens ++ preposition :: (locationTokens ++ rest)) (· = repeatable)
      (preposition :: (locationTokens ++ rest)) := by
    cases repeated with
    | absent =>
        refine takes_eat_other ?_
        simp [Token.headKind, show _ = _ from isOn]
    | present isWord => exact takes_eat isWord
  have isLocation : (Token.headKind (locationTokens ++ rest)).isName = true := by
    cases located with
    | last spelled =>
        rcases spelled with ⟨token, rfl, spelled⟩
        exact spelled.1
    | cons spelled _ _ =>
        rcases spelled with ⟨token, rfl, spelled⟩
        exact spelled.1
  refine .bind repeats fun repeatable sameRepeatable => .bind (takes_expect isOn) fun _ _ => ?_
  refine .bind (takes_eatMark_other (TokenKind.ne_of_isName isLocation _).2) fun _ _ => ?_
  refine .look looks_depthBound fun fuel isBound => ?_
  refine .bind (takes_directiveLocations located follows ?_) fun locations sameLocations =>
    takes_spanned start fun span => ?_
  · rw [isBound, List.length_append]
    omega
  · simp only [DirectiveDefinition.toSchemaDirective,
      text_eq_of_unplaced_eq sameName, sameArguments, sameRepeatable, sameLocations]

/-! ## Definitions -/

theorem takes_definition?_of_spellsPart {used rest : List Token} {part : SchemaPart}
    (spelled : SpellsPart used part) (follows : Unmarked rest) :
    Takes definition? (used ++ rest) (·.bind Definition.part? = some part) rest := by
  cases spelled with
  | @roots word used operations isWord between =>
      have undescribed : Takes description? (word :: (used ++ rest)) (descriptionText · = none)
          (word :: (used ++ rest)) :=
        takes_description? .absent (by rw [Token.headKind, isWord]; rfl)
      refine .bind undescribed fun description _ => ?_
      refine .look looks_kind fun kind isKind => ?_
      obtain rfl : kind = .keyword .schema := isKind.trans isWord
      refine .bind (takes_schemaDefinition between) fun definition same => .pure ?_
      exact congrArg (some ∘ SchemaPart.roots) same
  | type spelled =>
      rcases spelled with @⟨descriptionTokens, formTokens, word, token, keyword, text?, name, form,
        described, isWord, isName, formed⟩
      simp only [List.append_assoc, List.cons_append]
      refine .bind (takes_description? described (by rw [Token.headKind, isWord]; rfl))
        fun description sameDescription => .look looks_kind fun kind isKind => ?_
      obtain rfl : kind = .keyword keyword := isKind.trans isWord
      have takes : Takes (do return some (Definition.type (← typeDefinition keyword description)))
          (word :: token :: (formTokens ++ rest))
          (·.bind Definition.part? =
            some (.type { name := name.text, description := text?, form })) rest := by
        rw [← sameDescription]
        exact .bind (takes_typeDefinition isName formed follows) fun definition same =>
          .pure (congrArg (some ∘ SchemaPart.type) same)
      cases formed <;> exact takes
  | directive spelled =>
      rcases spelled with ⟨described, isWord, isAt, isName, given, repeated, isOn, located⟩
      simp only [List.append_assoc, List.cons_append]
      refine .bind (takes_description? described (by rw [Token.headKind, isWord]; rfl))
        fun description sameDescription => .look looks_kind fun kind isKind => ?_
      obtain rfl : kind = .keyword .directive := isKind.trans isWord
      rw [← sameDescription]
      exact .bind (takes_directiveDefinition isAt isName given repeated isOn located follows)
        fun definition same => .pure (congrArg (some ∘ SchemaPart.directive) same)

/-- A part starts with a string or a keyword. -/
theorem unmarked_of_spellsPart {used rest : List Token} {part : SchemaPart}
    (spelled : SpellsPart used part) : Unmarked (used ++ rest) ∧ used ≠ [] := by
  cases spelled with
  | roots isWord between =>
      refine ⟨fun mark => ?_, by simp⟩
      rw [List.cons_append, Token.headKind, isWord]
      simp
  | type spelled =>
      rcases spelled with ⟨described, isWord, isName, formed⟩
      refine ⟨fun mark => ?_, by simp⟩
      rw [List.append_assoc]
      exact (headKind_of_described described (by rw [isWord]; rfl) mark).2
  | directive spelled =>
      rcases spelled with ⟨described, isWord, isAt, isName, given, repeated, isOn, located⟩
      refine ⟨fun mark => ?_, by simp⟩
      rw [List.append_assoc]
      exact (headKind_of_described described (by rw [isWord]; rfl) mark).2

theorem takes_definitionsWithin_of_spellsPart {used : List (List Token)} {parts : List SchemaPart}
    (spelled : List.Forall₂ SpellsPart used parts) {fuel : Nat}
    (enough : used.flatten.length < fuel) :
    Takes (definitionsWithin fuel) used.flatten
      (·.map Definition.part? = parts.map some) [] := by
  induction spelled generalizing fuel with
  | nil =>
      cases fuel with
      | zero => exact .pure rfl
      | succ fuel => exact .look looks_isAtEnd fun _ isEnd => .ite_pos (isEnd.mpr rfl) (.pure rfl)
  | @cons used part parts definitions first others ih =>
      have nonempty : used ≠ [] := (@unmarked_of_spellsPart _ [] _ first).2
      have positive := List.length_pos_iff.mpr nonempty
      simp only [List.flatten_cons, List.length_append] at enough
      cases fuel with
      | zero => omega
      | succ fuel =>
          rw [List.flatten_cons]
          refine .look looks_isAtEnd fun _ isEnd => .ite_neg ?_ ?_
          · rw [isEnd]
            exact List.append_ne_nil_of_left_ne_nil nonempty _
          · have follows : Unmarked parts.flatten := by
              cases others with
              | nil => exact fun mark => by simp [Token.headKind]
              | cons second _ =>
                  rw [List.flatten_cons]
                  exact (unmarked_of_spellsPart second).1
            refine .bind ((takes_definition?_of_spellsPart first follows).progressing nonempty)
              fun found same => .bind (ih (by omega)) fun results sameAll => .pure ?_
            rcases Option.bind_eq_some_iff.mp same with ⟨result, rfl, sameFirst⟩
            simp only [Option.toList_some, List.cons_append, List.nil_append, List.map_cons,
              sameFirst, sameAll]

/-- A document of parts of a schema says these parts. -/
theorem takes_document_of_spellsPart {tokens : List Token} {parts : List SchemaPart}
    (spelled : SpellsEach SpellsPart tokens parts) :
    Takes Parser.document tokens (·.definitions.map Definition.part? = parts.map some) [] := by
  rcases spelled with ⟨each⟩
  refine .look looks_position fun start _ => .look looks_depthBound fun fuel isBound => ?_
  exact .bind (takes_definitionsWithin_of_spellsPart each (by omega)) fun definitions same =>
    takes_spanned start fun span => same

end Parser

end GraphQL

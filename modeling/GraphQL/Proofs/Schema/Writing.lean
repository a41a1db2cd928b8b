import GraphQL.Proofs.Schema.Defaults
import GraphQL.Proofs.Schema.Lines
import GraphQL.Proofs.Schema.Printing
import GraphQL.Proofs.Schema.Rereading

/-!
# Printed schemas spell what is read of them

Every part of a printed schema is scanned into tokens that spell what is read of that part. This
needs names that are words, types that can be written and descriptions that do not end a block
string. What is read for the defaults is left open; where all enum values can be written, it is the
defaults.
-/

namespace GraphQL

open Grammar Token Text

/-! ## What can be written -/

structure InputValue.IsWritable (value : InputValue) : Prop where
  name : IsWordText value.name
  type : value.type.IsWritable
  default : ∀ given, value.default? = some given → given.IsWritable
  description : DescriptionWritable value.description

/-- The input values stand under their own names, each once, and can be written. -/
structure InputsWritable (values : OrderedMap InputValue) : Prop where
  distinct : (OrderedMap.keys values).Nodup
  named : ∀ entry ∈ values, entry.2.name = entry.1
  writable : ∀ entry ∈ values, entry.2.IsWritable

structure OutputField.IsWritable (field : OutputField) : Prop where
  name : IsWordText field.name
  type : field.type.IsWritable
  arguments : InputsWritable field.arguments
  description : DescriptionWritable field.description

structure OutputsWritable (fields : OrderedMap OutputField) : Prop where
  distinct : (OrderedMap.keys fields).Nodup
  named : ∀ entry ∈ fields, entry.2.name = entry.1
  writable : ∀ entry ∈ fields, entry.2.IsWritable

structure EnumValue.IsWritable (value : EnumValue) : Prop where
  name : IsWordText value.name
  description : DescriptionWritable value.description

def TypeForm.IsWritable : TypeForm → Prop
  | scalar => True
  | object fields interfaces => OutputsWritable fields ∧ ∀ name ∈ interfaces, IsWordText name
  | interface fields interfaces => OutputsWritable fields ∧ ∀ name ∈ interfaces, IsWordText name
  | union members => members ≠ [] ∧ ∀ name ∈ members, IsWordText name
  | enum values => ∀ value ∈ values, value.IsWritable
  | inputObject fields => InputsWritable fields

theorem InputsWritable.of_mem_values {values : OrderedMap InputValue}
    (writable : InputsWritable values) {value : InputValue} (member : value ∈ values.values) :
    value.IsWritable := by
  rcases List.mem_map.mp member with ⟨entry, known, rfl⟩
  exact writable.writable entry known

theorem TypeForm.IsWritable.of_mem_inputs {form : TypeForm} (writable : form.IsWritable)
    {value : InputValue} (declared : value ∈ form.inputs) : value.IsWritable := by
  have ofOutputs {fields : OrderedMap OutputField} (writable : OutputsWritable fields)
      (declared : value ∈ (OrderedMap.values fields).flatMap fun field => field.arguments.values) :
      value.IsWritable := by
    rcases List.mem_flatMap.mp declared with ⟨field, isField, declared⟩
    rcases List.mem_map.mp isField with ⟨entry, known, rfl⟩
    exact (writable.writable entry known).arguments.of_mem_values declared
  cases form with
  | object fields interfaces => exact ofOutputs writable.1 declared
  | interface fields interfaces => exact ofOutputs writable.1 declared
  | inputObject fields => exact InputsWritable.of_mem_values writable declared
  | _ => cases declared

structure SchemaType.IsWritable (type : SchemaType) : Prop where
  name : IsWordText type.name
  form : type.form.IsWritable
  description : DescriptionWritable type.description

structure SchemaDirective.IsWritable (directive : SchemaDirective) : Prop where
  name : IsWordText directive.name
  arguments : InputsWritable directive.arguments
  located : directive.locations ≠ []
  description : DescriptionWritable directive.description

/-! ## Input values -/

namespace Schema

variable {schema : Schema} {read : TypeRef → Json → Json}

/-- What is read for the default of an input value. -/
def ReadsDefault (schema : Schema) (read : TypeRef → Json → Json) (value : InputValue) : Prop :=
  ∀ default literal, value.default? = some default →
    schema.defaultLiteral default value.type = .ok literal →
      Lexes Breaks literal (SpellsValue · (read value.type default))

/-- A default is read as a value of its type. -/
theorem readsDefault_floated (enums : schema.EnumsWritable) {value : InputValue}
    (writable : value.IsWritable) : schema.ReadsDefault (readFloated schema.inputForm?) value :=
  fun default _ isGiven printed =>
    lexes_defaultLiteral enums printed (writable.default default isGiven)

theorem lexes_colon : Lexes Anything ": " (IsOne (IsMark .colon)) :=
  ((lexes_punctuator .colon).mono fun _ _ => trivial).beforeIgnored (c := ' ') rfl

theorem lexes_declaration {name : String} {type : TypeRef} (isWord : IsWordText name)
    (writable : type.IsWritable) :
    Lexes Breaks (name ++ ": " ++ type.text) fun tokens =>
      ∃ token colon typeTokens expression, tokens = token :: colon :: typeTokens ∧
        IsName token ⟨name, ⟨0, 0⟩⟩ ∧ IsMark .colon colon ∧ SpellsType typeTokens expression ∧
        expression.toTypeRef = type := by
  refine (((lexes_name isWord ⟨0, 0⟩).append lexes_colon fun rest _ =>
    breaks_text rfl rest).followedBy (TypeRef.lexes_text writable)).weaken ?_
  rintro _ ⟨_, typeTokens, rfl, ⟨_, _, rfl, ⟨token, rfl, isName⟩, colon, rfl, isColon⟩, expression,
    same, typed, _⟩
  exact ⟨token, colon, typeTokens, expression, rfl, isName, isColon, typed, same⟩

/-- Spells an input value when its description comes first. -/
def SpellsUndescribed (tokens : List Token) (value : InputValue) : Prop :=
  ∀ descriptionTokens description, SpellsDescription descriptionTokens description →
    SpellsInputValue (descriptionTokens ++ tokens) { value with description }

theorem lexes_inputValueText {value : InputValue} {text : String} (writable : value.IsWritable)
    (reads : schema.ReadsDefault read value) (printed : schema.inputValueText value = .ok text) :
    Lexes Breaks text (SpellsUndescribed · (value.reread read)) := by
  have declared := lexes_declaration writable.name writable.type
  rcases inputValueText_eq_ok.mp printed with ⟨missing, rfl⟩ |
    ⟨default, literal, isGiven, valuePrinted, rfl⟩
  · refine declared.weaken ?_
    rintro _ ⟨token, colon, typeTokens, expression, rfl, isName, isColon, typed, same⟩
    intro descriptionTokens description described
    have spelled := SpellsInputValue.mk described isName isColon typed .absent
    rw [List.append_nil, same] at spelled
    rwa [InputValue.reread, missing]
  · have equals := (((lexes_punctuator .equals).mono fun _ _ => trivial).beforeIgnored
      (c := ' ') rfl).afterIgnored (c := ' ') rfl
    have valued := reads default literal isGiven valuePrinted
    refine ((declared.append equals fun rest _ =>
      breaks_of_isIgnored (c := ' ') rfl _).followedBy valued).weaken ?_
    rintro _ ⟨_, valueTokens, rfl, ⟨_, _, rfl, ⟨token, colon, typeTokens, expression, rfl, isName,
      isColon, typed, same⟩, equals, rfl, isEquals⟩, value, spelled, sameValue⟩
    intro descriptionTokens description described
    have spelled := SpellsInputValue.mk described isName isColon typed (.present isEquals spelled)
    rw [same, Option.map_some, sameValue] at spelled
    rw [InputValue.reread, isGiven, Option.map_some]
    simpa using spelled

/-- Sorted values stand under their names again. -/
theorem byName_sortedByKey {α : Type} {name : α → String} {change : α → α} {map : OrderedMap α}
    (distinct : (OrderedMap.keys map).Nodup)
    (named : ∀ entry ∈ map, name (change entry.2) = entry.1) :
    OrderedMap.byName name ((OrderedMap.sortedByKey map).values.map change) =
      (OrderedMap.sortedByKey map).mapValues change := by
  have sorted : (OrderedMap.keys ((OrderedMap.sortedByKey map).mapValues change)).Nodup := by
    rw [OrderedMap.keys_mapValues]
    exact OrderedMap.nodup_keys_sortedByKey distinct
  rw [← OrderedMap.ofPairs_of_nodup sorted, OrderedMap.byName, OrderedMap.values,
    OrderedMap.mapValues, List.map_map, List.map_map]
  congr 1
  refine List.map_congr_left fun entry member => ?_
  have same := named entry ((OrderedMap.sortedByKey_perm map).mem_iff.mp member)
  exact Prod.ext same rfl

/-- A text that keeps what is before it apart from what follows. -/
def KeepsApart (text : String) : Prop :=
  ∀ rest, Breaks rest → Breaks (text.toList ++ rest)

theorem keepsApart_empty : KeepsApart "" :=
  fun _ breaks => breaks

theorem keepsApart_append {first second : String} (opens : first.toList.head?.any (fun c =>
    !isNameContinue c && c != '.' && c != '"') = true) : KeepsApart (first ++ second) := by
  intro rest _
  rw [String.toList_append, List.append_assoc]
  exact breaks_text opens _

/-- What is made of the items, in their order. -/
theorem forall₂_map_of_forall₂ {α β γ : Type} {makes : α → β → Prop} {holds : β → γ → Prop}
    {change : α → γ} {items : List α} {results : List β} (each : List.Forall₂ makes items results)
    (all : ∀ item ∈ items, ∀ result, makes item result → holds result (change item)) :
    List.Forall₂ holds results (items.map change) := by
  induction each with
  | nil => exact .nil
  | cons first _ ih =>
      exact .cons (all _ List.mem_cons_self _ first)
        (ih fun item member => all item (List.mem_cons_of_mem _ member))

theorem mem_of_mem_sortedByKey {α : Type} {map : OrderedMap α} {value : α}
    (member : value ∈ (OrderedMap.sortedByKey map).values) : ∃ name, (name, value) ∈ map := by
  rcases List.mem_map.mp member with ⟨⟨name, _⟩, known, rfl⟩
  exact ⟨name, List.mem_mergeSort.mp known⟩

theorem lexes_argumentsText {values : OrderedMap InputValue} {text : String}
    (writable : InputsWritable values)
    (reads : ∀ value ∈ values.values, schema.ReadsDefault read value)
    (printed : schema.argumentsText values = .ok text) :
    KeepsApart text ∧ Lexes Breaks text fun tokens => ∃ arguments,
      SpellsInputValues tokens arguments ∧
      OrderedMap.byName InputValue.name arguments = argumentsReread read values := by
  rcases argumentsText_eq_ok.mp printed with ⟨rfl, rfl⟩ | ⟨_, texts, each, rfl⟩
  · refine ⟨keepsApart_empty, lexes_empty.weaken ?_⟩
    rintro _ rfl
    refine ⟨[], .absent, ?_⟩
    rw [argumentsReread, OrderedMap.sortedByKey, List.mergeSort_nil]
    rfl
  · have lexes : List.Forall₂ (fun text value => Lexes Breaks text (SpellsInputValue · value)) texts
        ((OrderedMap.sortedByKey values).values.map (InputValue.reread read)) :=
      forall₂_map_of_forall₂ each fun value member text printed => by
        rcases mem_of_mem_sortedByKey member with ⟨name, known⟩
        exact (lexes_inputValueText (writable.writable _ known)
          (reads _ (List.mem_map_of_mem known)) printed).weaken fun _ spelled =>
            spelled [] none .absent
    refine ⟨fun rest _ => ?_, ?_⟩
    · rw [String.append_assoc, String.toList_append, List.append_assoc]
      exact breaks_text rfl _
    · refine (((lexes_punctuator .openParen).followedBy (lexes_listed lexes)).append
        ((lexes_punctuator .closeParen).mono fun _ _ => trivial) fun rest _ =>
          breaks_text rfl rest).weaken ?_
      rintro _ ⟨_, _, rfl, ⟨_, used, rfl, ⟨first, rfl, opens⟩, each⟩, last, rfl, closes⟩
      exact ⟨_, .present (.mk opens each closes), byName_sortedByKey writable.distinct
        writable.named⟩

/-! ## Fields and enum values -/

theorem lexes_deprecationText (deprecation : Option String) :
    KeepsApart (deprecationText deprecation) ∧
      Lexes Breaks (deprecationText deprecation) fun tokens => ∃ directives,
        SpellsDirectives tokens directives ∧ deprecationReason directives = deprecation := by
  cases deprecation with
  | none =>
      refine ⟨keepsApart_empty, lexes_empty.weaken ?_⟩
      rintro _ rfl
      exact ⟨[], .nil, rfl⟩
  | some reason =>
      refine ⟨keepsApart_append (by rw [String.toList_append]; rfl), ?_⟩
      have name := (lexes_name (show IsWordText "deprecated" by decide) ⟨0, 0⟩).append
        (lexes_punctuator .openParen) fun rest _ => breaks_text rfl rest
      have argument := (lexes_name (show IsWordText "reason" by decide) ⟨0, 0⟩).append lexes_colon
        fun rest _ => breaks_text rfl rest
      have heading := (((lexes_punctuator .atSign).followedBy name).followedBy argument)
        |>.afterIgnored (c := ' ') rfl
      have closing : Lexes Breaks Punctuator.closeParen.text (IsOne (IsMark .closeParen)) :=
        (lexes_punctuator .closeParen).mono fun _ _ => trivial
      have lexes := (heading.followedBy (lexes_quote reason)).append closing fun rest _ =>
        breaks_text rfl rest
      have same : deprecationText (some reason) =
          String.singleton ' ' ++ (Punctuator.atSign.text ++ ("deprecated" ++
            Punctuator.openParen.text) ++ ("reason" ++ ": ")) ++ Text.quote reason ++
            Punctuator.closeParen.text := rfl
      rw [same]
      refine lexes.weaken ?_
      rintro _ ⟨_, _, rfl, ⟨_, _, rfl, ⟨_, _, rfl, ⟨_, _, rfl, ⟨atSign, rfl, isAt⟩, _, _, rfl,
        ⟨token, rfl, isName⟩, ⟨first, rfl, opens⟩⟩, _, _, rfl, ⟨key, rfl, isKey⟩, colon, rfl,
        isColon⟩, value, rfl, isString, reads⟩, last, rfl, closes⟩
      have argument : SpellsArgument [key, colon, value]
          ⟨⟨"reason", ⟨0, 0⟩⟩, .string _ ⟨0, 0⟩, ⟨0, 0⟩⟩ := .mk isKey isColon (.string isString reads)
      have given : SpellsArguments (first :: ([key, colon, value] ++ [last])) [_] :=
        .present (.mk opens (.cons argument .nil) closes)
      have directive : SpellsDirective [atSign, token, first, key, colon, value, last]
          ⟨⟨"deprecated", ⟨0, 0⟩⟩, _, ⟨0, 0⟩⟩ := .mk isAt isName given
      have directed : SpellsDirectives [atSign, token, first, key, colon, value, last] [_] :=
        .cons directive .nil
      refine ⟨_, directed, ?_⟩
      rw [Parser.unescape_bodyBetween_quote]
      rfl

theorem isIndentation_empty : IsIndentation "" := by
  simp [IsIndentation]

theorem isIndentation_two : IsIndentation "  " := by
  simp [IsIndentation]

theorem lexes_outputFieldLines {field : OutputField} {lines : List String}
    (writable : field.IsWritable)
    (reads : ∀ value ∈ field.arguments.values, schema.ReadsDefault read value)
    (printed : schema.outputFieldLines field = .ok lines) :
    Lexes Anything (linesText lines) (SpellsOutputField · (field.reread read)) := by
  rcases outputFieldLines_eq_ok.mp printed with ⟨text, argued, rfl⟩
  rcases lexes_argumentsText writable.arguments reads argued with ⟨apart, given⟩
  rcases lexes_deprecationText field.deprecation with ⟨deprecationApart, deprecated⟩
  have name := lexes_indented isIndentation_two (lexes_name writable.name ⟨0, 0⟩)
  have typed := ((name.append given apart).append lexes_colon fun rest _ =>
    breaks_text rfl rest).followedBy (TypeRef.lexes_text writable.type)
  refine ((lexes_descriptionLines isIndentation_two writable.description).lines
    (lexes_line (typed.append deprecated deprecationApart))).weaken ?_
  rintro _ ⟨descriptionTokens, _, rfl, described, _, _, rfl, ⟨_, _, rfl, ⟨_, _, rfl, ⟨_, _, rfl,
    ⟨token, rfl, isName⟩, values, given, sameValues⟩, colon, rfl, isColon⟩, type, sameType, typed, _⟩,
    directives, directed, reason⟩
  have spelled := SpellsOutputField.mk described isName given isColon typed directed
  rw [sameValues, sameType, reason] at spelled
  simpa only [OutputField.reread, List.append_assoc, List.cons_append, List.nil_append] using spelled

theorem lexes_inputFieldLines {field : InputValue} {lines : List String}
    (writable : field.IsWritable) (reads : schema.ReadsDefault read field)
    (printed : schema.inputFieldLines field = .ok lines) :
    Lexes Anything (linesText lines) (SpellsInputValue · (field.rereadField read)) := by
  rcases inputFieldLines_eq_ok.mp printed with ⟨text, valued, rfl⟩
  refine ((lexes_descriptionLines isIndentation_two writable.description).lines
    (lexes_line (lexes_indented isIndentation_two
      (lexes_inputValueText writable reads valued)))).weaken ?_
  rintro _ ⟨descriptionTokens, _, rfl, described, spelled⟩
  exact spelled descriptionTokens _ described

theorem lexes_enumValueLines {value : EnumValue} (writable : value.IsWritable) :
    Lexes Anything (linesText (enumValueLines value)) (SpellsEnumValue · value.reread) := by
  rcases lexes_deprecationText value.deprecation with ⟨apart, deprecated⟩
  have name := lexes_indented isIndentation_two (lexes_name writable.name ⟨0, 0⟩)
  refine ((lexes_descriptionLines isIndentation_two writable.description).lines
    (lexes_line (name.append deprecated apart))).weaken ?_
  rintro _ ⟨descriptionTokens, _, rfl, described, _, directiveTokens, rfl, ⟨token, rfl, isName⟩,
    directives, directed, reason⟩
  have spelled := SpellsEnumValue.mk described isName directed
  rwa [reason] at spelled

/-! ## Types -/

theorem lexes_opening (keyword : Keyword) {name : String} (isWord : IsWordText name) :
    Lexes Breaks (keyword.text ++ " " ++ name) fun tokens => ∃ word token, tokens = [word, token] ∧
      IsKeyword keyword word ∧ IsName token ⟨name, ⟨0, 0⟩⟩ := by
  refine (((lexes_keyword keyword).beforeIgnored (c := ' ') rfl).followedBy
    (lexes_name isWord ⟨0, 0⟩)).weaken ?_
  rintro _ ⟨_, _, rfl, ⟨word, rfl, isWord⟩, token, rfl, isName⟩
  exact ⟨word, token, rfl, isWord, isName⟩

theorem lexes_sortedNames {mark : Punctuator} {separator : String} {names : List String}
    (same : separator = " " ++ mark.text ++ " ") (filled : names ≠ [])
    (words : ∀ name ∈ names, IsWordText name) :
    Lexes Breaks (sortedNames separator names) (SpellsSeparated mark SpellsName · (inOrder names)) := by
  have perm := List.mergeSort_perm names fun left right => decide (left ≤ right)
  subst same
  refine lexes_separated (fun none => filled ?_) (List.forall₂_same.mpr fun name member => ?_)
  · exact List.perm_nil.mp (none ▸ perm.symm)
  · exact lexes_name (words name (perm.mem_iff.mp member)) ⟨0, 0⟩

theorem lexes_implementsText {interfaces : List String}
    (words : ∀ name ∈ interfaces, IsWordText name) :
    KeepsApart (implementsText interfaces) ∧
      Lexes Breaks (implementsText interfaces) (SpellsInterfaces · (inOrder interfaces)) := by
  unfold implementsText
  split
  · rename_i isEmpty
    obtain rfl := List.isEmpty_iff.mp isEmpty
    refine ⟨keepsApart_empty, lexes_empty.weaken ?_⟩
    rintro _ rfl
    rw [inOrder, List.mergeSort_nil]
    exact .absent
  · rename_i filled
    refine ⟨keepsApart_append rfl, ?_⟩
    have lexes := (((lexes_keyword .implements).beforeIgnored (c := ' ') rfl).afterIgnored
      (c := ' ') rfl).followedBy (@lexes_sortedNames .ampersand _ _ rfl
        (fun none => filled (List.isEmpty_iff.mpr none)) words)
    refine lexes.weaken ?_
    rintro _ ⟨_, used, rfl, ⟨word, rfl, isWord⟩, named⟩
    exact .present isWord named

theorem lexes_outputTypeLines {keyword : Keyword} {name : String}
    {fields : OrderedMap OutputField} {interfaces lines : List String}
    (isWord : IsWordText name) (writable : OutputsWritable fields)
    (words : ∀ name ∈ interfaces, IsWordText name)
    (reads : ∀ value ∈ (OrderedMap.values fields).flatMap fun field => field.arguments.values,
      schema.ReadsDefault read value)
    (printed : schema.outputTypeLines (keyword.text ++ " " ++ name ++ implementsText interfaces)
      fields = .ok lines) :
    Lexes Anything (linesText lines) fun tokens =>
      ∃ word token interfaceTokens fieldTokens declared,
        tokens = word :: token :: (interfaceTokens ++ fieldTokens) ∧ IsKeyword keyword word ∧
        IsName token ⟨name, ⟨0, 0⟩⟩ ∧ SpellsInterfaces interfaceTokens (inOrder interfaces) ∧
        SpellsBetween .openBrace .closeBrace SpellsOutputField fieldTokens declared ∧
        OrderedMap.byName OutputField.name declared =
          (OrderedMap.sortedByKey fields).mapValues (OutputField.reread read) := by
  rcases outputTypeLines_eq_ok.mp printed with ⟨blocks, each, rfl⟩
  rcases lexes_implementsText words with ⟨apart, implemented⟩
  have lexes : List.Forall₂ (fun lines field =>
      Lexes Anything (linesText lines) (SpellsOutputField · field)) blocks
      ((OrderedMap.sortedByKey fields).values.map (OutputField.reread read)) :=
    forall₂_map_of_forall₂ each fun field member lines printed => by
      rcases mem_of_mem_sortedByKey member with ⟨name, known⟩
      exact lexes_outputFieldLines (writable.writable _ known)
        (fun value declared => reads value
          (List.mem_flatMap.mpr ⟨_, List.mem_map_of_mem known, declared⟩)) printed
  have heading := (lexes_opening keyword isWord).append implemented apart
  refine (lexes_braced heading (lexes_flatten lexes)).weaken ?_
  rintro _ ⟨_, fieldTokens, rfl, ⟨_, interfaceTokens, rfl, ⟨word, token, rfl, isWord, isName⟩,
    implemented⟩, between⟩
  exact ⟨word, token, interfaceTokens, fieldTokens, _, by simp, isWord, isName, implemented, between,
    byName_sortedByKey writable.distinct writable.named⟩

/-- The tokens of a form after the name of the type. -/
theorem lexes_formLines {name : String} {form : TypeForm} {lines : List String}
    (isWord : IsWordText name) (writable : form.IsWritable)
    (reads : ∀ value ∈ form.inputs, schema.ReadsDefault read value)
    (printed : schema.formLines name form = .ok lines) :
    Lexes Anything (linesText lines) fun tokens => ∃ word token keyword formTokens,
      tokens = word :: token :: formTokens ∧ IsKeyword keyword word ∧
      IsName token ⟨name, ⟨0, 0⟩⟩ ∧
      SpellsForm keyword formTokens (form.reread read) := by
  cases form with
  | scalar =>
      cases printed
      refine (lexes_line (lexes_opening .scalar isWord)).weaken ?_
      rintro _ ⟨word, token, rfl, isWord, isName⟩
      exact ⟨word, token, _, [], rfl, isWord, isName, .scalar⟩
  | object fields interfaces =>
      refine (@lexes_outputTypeLines _ _ .typeDefinition _ _ _ _ isWord writable.1 writable.2
        reads printed).weaken ?_
      rintro _ ⟨word, token, interfaceTokens, fieldTokens, declared, rfl, isWord, isName, implemented,
        between, same⟩
      refine ⟨word, token, _, _, rfl, isWord, isName, ?_⟩
      rw [TypeForm.reread, ← same]
      exact .object implemented between
  | interface fields interfaces =>
      refine (@lexes_outputTypeLines _ _ .interface _ _ _ _ isWord writable.1 writable.2
        reads printed).weaken ?_
      rintro _ ⟨word, token, interfaceTokens, fieldTokens, declared, rfl, isWord, isName, implemented,
        between, same⟩
      refine ⟨word, token, _, _, rfl, isWord, isName, ?_⟩
      rw [TypeForm.reread, ← same]
      exact .interface implemented between
  | union members =>
      cases printed
      have equals := (((lexes_punctuator .equals).mono fun _ _ => trivial).beforeIgnored
        (c := ' ') rfl).afterIgnored (c := ' ') rfl
      refine (lexes_line (((lexes_opening .union isWord).append equals fun rest _ =>
        breaks_of_isIgnored (c := ' ') rfl _).followedBy
          (@lexes_sortedNames .pipe _ _ rfl writable.1 writable.2))).weaken ?_
      rintro _ ⟨_, used, rfl, ⟨_, _, rfl, ⟨word, token, rfl, isWord, isName⟩, equals, rfl, isEquals⟩,
        named⟩
      exact ⟨word, token, _, _, rfl, isWord, isName, .union isEquals named⟩
  | enum values =>
      cases printed
      have perm := List.mergeSort_perm values fun left right => decide (left.name ≤ right.name)
      have lexes : List.Forall₂ (fun lines value =>
          Lexes Anything (linesText lines) (SpellsEnumValue · value))
          ((values.mergeSort fun left right => decide (left.name ≤ right.name)).map enumValueLines)
          ((values.mergeSort fun left right => decide (left.name ≤ right.name)).map
            EnumValue.reread) := by
        rw [List.forall₂_map_left_iff, List.forall₂_map_right_iff]
        exact List.forall₂_same.mpr fun value member =>
          lexes_enumValueLines (writable value (perm.mem_iff.mp member))
      rw [List.flatMap_def]
      refine (lexes_braced (lexes_opening .enum isWord) (lexes_flatten lexes)).weaken ?_
      rintro _ ⟨_, used, rfl, ⟨word, token, rfl, isWord, isName⟩, between⟩
      exact ⟨word, token, _, _, rfl, isWord, isName, .enum between⟩
  | inputObject fields =>
      rcases formLines_inputObject_eq_ok.mp printed with ⟨blocks, each, rfl⟩
      have lexes : List.Forall₂ (fun lines field =>
          Lexes Anything (linesText lines) (SpellsInputValue · field)) blocks
          ((OrderedMap.sortedByKey fields).values.map (InputValue.rereadField read)) :=
        forall₂_map_of_forall₂ each fun field member lines printed => by
          rcases mem_of_mem_sortedByKey member with ⟨name, known⟩
          exact lexes_inputFieldLines (writable.writable _ known)
            (reads _ (List.mem_map_of_mem known)) printed
      refine (lexes_braced (lexes_opening .input isWord) (lexes_flatten lexes)).weaken ?_
      rintro _ ⟨_, used, rfl, ⟨word, token, rfl, isWord, isName⟩, between⟩
      refine ⟨word, token, _, _, rfl, isWord, isName, ?_⟩
      have same : OrderedMap.byName InputValue.name ((OrderedMap.sortedByKey fields).values.map
          (InputValue.rereadField read)) =
            (OrderedMap.sortedByKey fields).mapValues (InputValue.rereadField read) :=
        byName_sortedByKey writable.distinct writable.named
      rw [TypeForm.reread, ← same]
      exact .inputObject between

theorem lexes_typeLines {type : SchemaType} {lines : List String} (writable : type.IsWritable)
    (reads : ∀ value ∈ type.form.inputs, schema.ReadsDefault read value)
    (printed : schema.typeLines type = .ok lines) :
    Lexes Anything (linesText lines) (SpellsSchemaType · (type.reread read)) := by
  rcases typeLines_eq_ok.mp printed with ⟨others, formed, rfl⟩
  refine ((lexes_descriptionLines isIndentation_empty writable.description).lines
    (lexes_formLines writable.name writable.form reads formed)).weaken ?_
  rintro _ ⟨descriptionTokens, _, rfl, described, word, token, keyword, formTokens, rfl, isWord,
    isName, formed⟩
  exact .mk described isWord isName formed

/-! ## Directives and root types -/

theorem lexes_repeatable (repeatable : Bool) :
    KeepsApart (if repeatable then " repeatable" else "") ∧
      Lexes Breaks (if repeatable then " repeatable" else "") (SpellsRepeatable · repeatable) := by
  cases repeatable with
  | false =>
      refine ⟨keepsApart_empty, lexes_empty.weaken ?_⟩
      rintro _ rfl
      exact .absent
  | true =>
      refine ⟨fun rest _ => breaks_text rfl rest, ?_⟩
      refine ((lexes_keyword .repeatable).afterIgnored (c := ' ') rfl).weaken ?_
      rintro _ ⟨word, rfl, isWord⟩
      exact .present isWord

theorem isWordText_location (location : DirectiveLocation) : IsWordText location.text := by
  cases location <;> decide

theorem lexes_location (location : DirectiveLocation) :
    Lexes Breaks location.text (SpellsLocation · location) := by
  refine (lexes_word (isWordText_location location)).weaken ?_
  rintro _ ⟨token, rfl, isKind, reads⟩
  exact ⟨token, rfl, isKind ▸ isName_wordKind _, reads⟩

theorem lexes_directiveLines {directive : SchemaDirective} {lines : List String}
    (writable : directive.IsWritable)
    (reads : ∀ value ∈ directive.arguments.values, schema.ReadsDefault read value)
    (printed : schema.directiveLines directive = .ok lines) :
    Lexes Anything (linesText lines) (SpellsSchemaDirective · (directive.reread read)) := by
  rcases directiveLines_eq_ok.mp printed with ⟨text, argued, rfl⟩
  rcases lexes_argumentsText writable.arguments reads argued with ⟨apart, given⟩
  rcases lexes_repeatable directive.repeatable with ⟨repeatableApart, repeated⟩
  have opening := (((lexes_keyword .directive).beforeIgnored (c := ' ') rfl).followedBy
    (lexes_punctuator .atSign)).followedBy (lexes_name writable.name ⟨0, 0⟩)
  have preposition := ((lexes_keyword .onCondition).beforeIgnored (c := ' ') rfl).afterIgnored
    (c := ' ') rfl
  have located : Lexes Breaks ((" " ++ Punctuator.pipe.text ++ " ").intercalate
      (directive.locations.map DirectiveLocation.text))
      (SpellsSeparated .pipe SpellsLocation · directive.locations) := by
    refine lexes_separated (fun none => writable.located (List.map_eq_nil_iff.mp none)) ?_
    rw [List.forall₂_map_left_iff]
    exact List.forall₂_same.mpr fun location _ => lexes_location location
  have line := ((((opening.append given apart).append repeated repeatableApart).append preposition
    fun rest _ => breaks_of_isIgnored (c := ' ') rfl _).followedBy located)
  refine ((lexes_descriptionLines isIndentation_empty writable.description).lines
    (lexes_line line)).weaken ?_
  rintro _ ⟨descriptionTokens, _, rfl, described, _, locationTokens, rfl, ⟨_, _, rfl, ⟨_,
    repeatableTokens, rfl, ⟨_, argumentTokens, rfl, ⟨_, _, rfl, ⟨_, _, rfl, ⟨word, rfl, isWord⟩,
    ⟨atSign, rfl, isAt⟩⟩, ⟨token, rfl, isName⟩⟩, values, given, sameValues⟩, repeated⟩,
    preposition, rfl, isOn⟩, located⟩
  have spelled := SpellsSchemaDirective.mk described isWord isAt isName given repeated isOn located
  rw [sameValues] at spelled
  simpa [SchemaDirective.reread] using spelled

/-- The kinds of operations that have a root type, each with the name of it. -/
def rootEntries (schema : Schema) : List (OperationKind × String) :=
  [OperationKind.query, .mutation, .subscription].flatMap fun kind =>
    (schema.rootTypeName? kind).toList.map fun name => (kind, name)

theorem rootLines_eq : schema.rootLines =
    if schema.hasConventionalRoots then []
    else [braced "schema" (schema.rootEntries.map fun entry =>
      ["  " ++ entry.1.text ++ ": " ++ entry.2]).flatten] := by
  rcases schema with ⟨query, mutation, subscription, _, _⟩
  cases query <;> cases mutation <;> cases subscription <;> rfl

theorem mem_rootEntries {kind : OperationKind} {name : String} :
    (kind, name) ∈ schema.rootEntries ↔ schema.rootTypeName? kind = some name := by
  simp only [rootEntries, List.mem_flatMap, List.mem_map, Option.mem_toList, Prod.mk.injEq]
  constructor
  · rintro ⟨_, _, _, root, rfl, rfl⟩
    exact root
  · intro root
    exact ⟨kind, by cases kind <;> simp, name, root, rfl, rfl⟩

theorem lexes_operationKind (kind : OperationKind) :
    Lexes Breaks kind.text (IsOne fun word => Parser.operationKind? word.kind = some kind) := by
  have general {keyword : Keyword} (same : keyword.text = kind.text)
      (opens : Parser.operationKind? (.keyword keyword) = some kind) :
      Lexes Breaks kind.text (IsOne fun word => Parser.operationKind? word.kind = some kind) := by
    rw [← same]
    refine (lexes_keyword keyword).weaken ?_
    rintro _ ⟨word, rfl, isWord⟩
    exact ⟨word, rfl, (congrArg Parser.operationKind? isWord).trans opens⟩
  cases kind with
  | query => exact @general .query rfl rfl
  | mutation => exact @general .mutation rfl rfl
  | subscription => exact @general .subscription rfl rfl

theorem lexes_rootLine {entry : OperationKind × String} (isWord : IsWordText entry.2) :
    Lexes Anything (linesText ["  " ++ entry.1.text ++ ": " ++ entry.2]) (SpellsRoot · entry) := by
  have kind := lexes_indented isIndentation_two (lexes_operationKind entry.1)
  refine (lexes_line ((kind.append lexes_colon fun rest _ => breaks_text rfl rest).followedBy
    (lexes_name isWord ⟨0, 0⟩))).weaken ?_
  rintro _ ⟨_, _, rfl, ⟨_, _, rfl, ⟨word, rfl, opens⟩, colon, rfl, isColon⟩, token, rfl, isName⟩
  exact .mk opens isColon isName

/-! ## Schemas -/

/-- What is read of the parts of a printed schema. -/
def partsReread (schema : Schema) (read : TypeRef → Json → Json) : List SchemaPart :=
  (if schema.hasConventionalRoots then [] else [.roots schema.rootEntries]) ++
    schema.ownDirectives.map (fun directive => .directive (directive.reread read)) ++
    schema.ownTypes.map fun type => .type (type.reread read)

structure IsWritable (schema : Schema) : Prop where
  roots : ∀ kind name, schema.rootTypeName? kind = some name → IsWordText name
  directives : ∀ directive ∈ schema.ownDirectives, directive.IsWritable
  types : ∀ type ∈ schema.ownTypes, type.IsWritable

theorem IsWritable.of_mem_ownInputs (writable : schema.IsWritable) {value : InputValue}
    (own : value ∈ schema.ownInputs) : value.IsWritable := by
  rcases List.mem_append.mp own with own | own
  · rcases List.mem_flatMap.mp own with ⟨directive, isOwn, declared⟩
    exact (writable.directives directive isOwn).arguments.of_mem_values declared
  · rcases List.mem_flatMap.mp own with ⟨type, isOwn, declared⟩
    exact (writable.types type isOwn).form.of_mem_inputs declared

theorem lexes_rootLines (roots : ∀ kind name, schema.rootTypeName? kind = some name →
    IsWordText name) :
    List.Forall₂ (fun lines part => Lexes Anything (linesText lines) (SpellsPart · part))
      schema.rootLines
      (if schema.hasConventionalRoots then [] else [.roots schema.rootEntries]) := by
  rw [rootLines_eq]
  split
  · exact .nil
  · have lexes : List.Forall₂ (fun lines entry =>
        Lexes Anything (linesText lines) (SpellsRoot · entry))
        (schema.rootEntries.map fun entry => ["  " ++ entry.1.text ++ ": " ++ entry.2])
        schema.rootEntries := by
      rw [List.forall₂_map_left_iff]
      exact List.forall₂_same.mpr fun entry member =>
        lexes_rootLine (roots entry.1 entry.2 (mem_rootEntries.mp member))
    refine .cons ((lexes_braced (lexes_keyword .schema) (lexes_flatten lexes)).weaken ?_) .nil
    rintro _ ⟨_, used, rfl, ⟨word, rfl, isWord⟩, between⟩
    exact .roots isWord between

theorem linesText_eq_intercalate (line : String) (lines : List String) :
    "\n".intercalate (line :: lines) ++ "\n" = linesText (line :: lines) := by
  induction lines generalizing line with
  | nil => rw [String.intercalate_singleton, linesText, linesText, String.append_empty]
  | cons second lines ih =>
      rw [String.intercalate_cons_cons, linesText, ← ih, String.append_assoc, String.append_assoc]

/-- No part of a schema is printed without tokens. -/
theorem ne_nil_of_lexes {lines : List String} {part : SchemaPart}
    (lexes : Lexes Anything (linesText lines) (SpellsPart · part)) : lines ≠ [] := by
  rintro rfl
  rcases lexes 0 [] trivial with ⟨tokens, next, scanned, spelled⟩
  rw [show (linesText []).toList ++ [] = [] from rfl, scanFrom_nil, scanFrom_nil] at scanned
  have none : tokens = [] := by simpa using congrArg List.length scanned
  rcases spelled with ⟨_, _⟩ | ⟨⟨_, _, _, _⟩⟩ | ⟨⟨_, _, _, _, _, _, _, _⟩⟩ <;> simp at none

theorem lexes_blockText {lines : List String} {part : SchemaPart}
    (lexes : Lexes Anything (linesText lines) (SpellsPart · part)) :
    Lexes Anything ("\n".intercalate lines ++ "\n") (SpellsPart · part) := by
  cases lines with
  | nil => exact absurd rfl (ne_nil_of_lexes lexes)
  | cons line lines => rwa [linesText_eq_intercalate]

theorem blocksText_cons (lines second : List String) (blocks : List (List String)) :
    blocksText (lines :: second :: blocks) = ("\n".intercalate lines ++ "\n") ++
      (String.singleton '\n' ++ blocksText (second :: blocks)) := by
  simp only [blocksText, List.map_cons, String.intercalate_cons_cons]
  apply String.toList_inj.mp
  simp

/-- Blocks with an empty line between them. -/
theorem lexes_blocksText {blocks : List (List String)} {parts : List SchemaPart}
    (each : List.Forall₂ (fun lines part => Lexes Anything (linesText lines) (SpellsPart · part))
      blocks parts) :
    Lexes Anything (blocksText blocks) (SpellsEach SpellsPart · parts) := by
  induction each with
  | nil =>
      refine (lexes_ignored (c := '\n') rfl).weaken ?_
      rintro _ rfl
      exact .nil
  | @cons lines part blocks parts first others ih =>
      have block := lexes_blockText first
      cases others with
      | nil =>
          rw [blocksText, List.map_singleton, String.intercalate_singleton]
          refine block.weaken fun tokens spelled => ?_
          rw [← List.append_nil tokens]
          exact .cons spelled .nil
      | cons second others =>
          rw [blocksText_cons]
          refine (block.followedBy (ih.afterIgnored (c := '\n') rfl)).weaken ?_
          rintro _ ⟨used, others, rfl, spelled, each⟩
          exact .cons spelled each

theorem lexes_print (writable : schema.IsWritable)
    (reads : ∀ value ∈ schema.ownInputs, schema.ReadsDefault read value) {text : String}
    (printed : schema.print = .ok text) :
    Lexes Anything text (SpellsEach SpellsPart · (schema.partsReread read)) := by
  rcases print_eq_ok.mp printed with ⟨directives, types, directed, typed, rfl⟩
  refine lexes_blocksText (List.rel_append (List.rel_append (lexes_rootLines writable.roots) ?_) ?_)
  · exact forall₂_map_of_forall₂ directed fun directive member lines printed =>
      (lexes_directiveLines (writable.directives directive member)
        (fun value declared => reads value (List.mem_append_left _
          (List.mem_flatMap.mpr ⟨directive, member, declared⟩))) printed).weaken fun _ => .directive
  · exact forall₂_map_of_forall₂ typed fun type member lines printed =>
      (lexes_typeLines (writable.types type member)
        (fun value declared => reads value (List.mem_append_right _
          (List.mem_flatMap.mpr ⟨type, member, declared⟩))) printed).weaken fun _ => .type

end Schema

end GraphQL

import GraphQL.Proofs.Schema.Describing
import GraphQL.Proofs.Schema.Reading

/-!
# Descriptions of a schema that is printed and read

Whatever a default is printed as, it is a literal of some value, so a printed schema is spelled by
its parts and these are what is read of it, with any descriptions. The descriptions of types and
directives are written at the margin and those of fields and values are indented, so a schema that is
read again has its descriptions exactly if each of them survives this, and if no built-in type or
directive was defined again with another one.

This is about schemas whose unions have members. A union without any is printed with an equals sign
and nothing behind it; when the text is read again, the next word is its member, and the definition
that this word began can be lost without an error.
-/

namespace GraphQL

open Grammar Token

/-! ## Defaults are read as some values -/

/-- The text is a literal of some value. -/
def IsLiteralText (text : String) : Prop :=
  ∃ value, Lexes Breaks text (SpellsValue · value)

namespace IsLiteralText

theorem float {text : String} (lexes : Lexes Breaks text (IsSingle .float text)) :
    IsLiteralText text := by
  refine ⟨Literal.toJson (.float (Decimal.readNearest text) ⟨0, 0⟩), lexes.weaken ?_⟩
  rintro _ ⟨token, rfl, isFloat, texted⟩
  exact ⟨_, .float isFloat texted, rfl⟩

/-- A word may also be a keyword for a value. -/
theorem word {text : String} (isWord : IsWordText text) : IsLiteralText text := by
  by_cases keyword : text ∈ ["true", "false", "null"]
  · simp only [List.mem_cons, List.not_mem_nil, or_false] at keyword
    rcases keyword with rfl | rfl | rfl
    · exact ⟨_, Json.lexes_bool true⟩
    · exact ⟨_, Json.lexes_bool false⟩
    · exact ⟨_, Json.lexes_null⟩
  · exact ⟨_, Json.lexes_enum isWord keyword⟩

theorem array {texts : List String} (each : ∀ text ∈ texts, IsLiteralText text) :
    IsLiteralText ("[" ++ ", ".intercalate texts ++ "]") := by
  suffices ∃ items, List.Forall₂ (fun text value => Lexes Breaks text (SpellsValue · value)) texts
      items by
    rcases this with ⟨items, lexes⟩
    exact ⟨_, Json.lexes_array lexes⟩
  induction texts with
  | nil => exact ⟨[], .nil⟩
  | cons text texts ih =>
      rw [List.forall_mem_cons] at each
      rcases each with ⟨⟨value, lexes⟩, each⟩
      rcases ih each with ⟨items, others⟩
      exact ⟨value :: items, .cons lexes others⟩

/-- The text of a field whose name is a word and whose value has some literal. -/
def IsFieldText (field : String × Json) (text : String) : Prop :=
  ∃ valueText, text = field.1 ++ ": " ++ valueText ∧ IsWordText field.1 ∧ IsLiteralText valueText

theorem object {fields : List (String × Json)} {texts : List String}
    (distinct : (OrderedMap.keys fields).Nodup) (each : List.Forall₂ IsFieldText fields texts) :
    IsLiteralText ("\x7b" ++ ", ".intercalate texts ++ "\x7d") := by
  suffices ∃ entries : List (String × Json), OrderedMap.keys entries = OrderedMap.keys fields ∧
      List.Forall₂ (fun text entry => Lexes Breaks text (Json.SpellsEntry · entry)) texts entries by
    rcases this with ⟨entries, same, lexes⟩
    exact ⟨_, Json.lexes_object lexes (same ▸ distinct)⟩
  clear distinct
  induction each with
  | nil => exact ⟨[], rfl, .nil⟩
  | @cons field text fields texts first _ ih =>
      rcases first with ⟨valueText, rfl, isWord, value, lexes⟩
      rcases ih with ⟨entries, same, others⟩
      refine ⟨(field.1, value) :: entries, ?_, .cons (Json.lexes_entry isWord lexes) others⟩
      rw [OrderedMap.keys_cons, same]
      exact (OrderedMap.keys_cons _ _).symm

end IsLiteralText

namespace Json

mutual

theorem isLiteralText {value : Json} (writable : value.IsWritable) :
    IsLiteralText value.literal := by
  cases value with
  | null => exact ⟨_, lexes_null⟩
  | bool value => exact ⟨_, lexes_bool value⟩
  | int value =>
      simp only [IsWritable] at writable
      exact ⟨_, lexes_int writable⟩
  | float number =>
      simp only [IsWritable] at writable
      exact .float (Decimal.lexes_jsonFloatText writable)
  | string text => exact ⟨_, lexes_string text⟩
  | array items => exact .array (isLiteralText_items writable)
  | object fields => exact .object writable.1 (isFieldText_fields writable.2)

theorem isLiteralText_items {items : List Json} (writable : ItemsWritable items) :
    ∀ text ∈ literalItems items, IsLiteralText text := by
  cases items with
  | nil => nofun
  | cons item rest =>
      exact List.forall_mem_cons.mpr ⟨isLiteralText writable.1, isLiteralText_items writable.2⟩

theorem isFieldText_fields {fields : List (String × Json)} (writable : FieldsWritable fields) :
    List.Forall₂ IsLiteralText.IsFieldText fields (literalFields fields) := by
  cases fields with
  | nil => exact .nil
  | cons field rest =>
      rcases field with ⟨name, value⟩
      exact .cons ⟨_, rfl, writable.1, isLiteralText writable.2.1⟩ (isFieldText_fields writable.2.2)

end

end Json

namespace Schema

variable {schema : Schema}

theorem isLiteralText_of_scalarLiteral? {value : Json} {name text : String}
    (printed : scalarLiteral? name value = some text) (writable : value.IsWritable) :
    IsLiteralText text := by
  by_cases isFloat : name = "Float"
  · subst isFloat
    cases value with
    | int number =>
        simp only [Json.IsWritable] at writable
        cases printed
        exact .float (Decimal.lexes_floatText (isFinite_ofInt writable))
    | float number =>
        simp only [Json.IsWritable] at writable
        cases printed
        exact .float (Decimal.lexes_floatText writable)
    | _ => cases printed
  · rcases scalarLiteral?_cases isFloat printed with
      ⟨number, rfl, rfl⟩ | ⟨given, rfl, rfl⟩ | ⟨flag, rfl, rfl⟩ | rfl
    · simp only [Json.IsWritable] at writable
      exact ⟨_, Json.lexes_int writable⟩
    · exact ⟨_, Json.lexes_string given⟩
    · exact ⟨_, Json.lexes_bool flag⟩
    · exact Json.isLiteralText writable

/-- The values of enums are words. -/
def EnumsWords (schema : Schema) : Prop :=
  ∀ name has, schema.inputForm? name = some (.enum has) → ∀ text, has text = true → IsWordText text

mutual

theorem isLiteralText_of_defaultLiteral (words : schema.EnumsWords) {value : Json} {type : TypeRef}
    {text : String} (printed : schema.defaultLiteral value type = .ok text)
    (writable : value.IsWritable) : IsLiteralText text := by
  cases type with
  | nonNull inner =>
      rw [defaultLiteral_nonNull] at printed
      exact isLiteralText_of_defaultLiteral words printed writable
  | list item =>
      by_cases isArray : ∃ items, value = .array items
      · rcases isArray with ⟨items, rfl⟩
        rcases schema.defaultLiteral_array_eq_ok.mp printed with ⟨texts, each, rfl⟩
        exact .array (isLiteralText_of_defaultItems words each writable)
      · have single : ∀ items, value ≠ .array items := fun items same => isArray ⟨items, same⟩
        rw [defaultLiteral_single _ single] at printed
        exact isLiteralText_of_defaultLiteral words printed writable
  | named name =>
      by_cases isNull : value = .null
      · rw [isNull, defaultLiteral_null] at printed
        cases printed
        exact ⟨_, Json.lexes_null⟩
      · rcases (schema.defaultLiteral_named_eq_ok isNull).mp printed with
          ⟨_, printed⟩ | ⟨has, isEnum, rfl, known⟩ | ⟨type?, fields, texts, _, rfl, each, rfl⟩
        · exact isLiteralText_of_scalarLiteral? printed writable
        · exact .word (words name has isEnum text known)
        · exact .object writable.1 (isFieldText_of_defaultFields words each writable.2)
termination_by (sizeOf value, sizeOf type)

theorem isLiteralText_of_defaultItems (words : schema.EnumsWords) {items : List Json}
    {type : TypeRef} {texts : List String}
    (each : List.Forall₂ (fun item text => schema.defaultLiteral item type = .ok text) items texts)
    (writable : Json.ItemsWritable items) : ∀ text ∈ texts, IsLiteralText text := by
  cases items with
  | nil =>
      cases each
      nofun
  | cons item rest =>
      rcases List.forall₂_cons_left_iff.mp each with ⟨text, texts, first, others, rfl⟩
      exact List.forall_mem_cons.mpr ⟨isLiteralText_of_defaultLiteral words first writable.1,
        isLiteralText_of_defaultItems words others writable.2⟩
termination_by (sizeOf items, 0)

theorem isFieldText_of_defaultFields (words : schema.EnumsWords) {fields : List (String × Json)}
    {type? : String → Option TypeRef} {texts : List String}
    (each : List.Forall₂ (schema.PrintsField type?) fields texts)
    (writable : Json.FieldsWritable fields) :
    List.Forall₂ IsLiteralText.IsFieldText fields texts := by
  match fields with
  | [] =>
      cases each
      exact .nil
  | (name, value) :: rest =>
      rcases List.forall₂_cons_left_iff.mp each with
        ⟨_, texts, ⟨type, text, _, first, rfl⟩, others, rfl⟩
      exact .cons ⟨text, rfl, writable.1, isLiteralText_of_defaultLiteral words first writable.2.1⟩
        (isFieldText_of_defaultFields words others writable.2.2)
termination_by (sizeOf fields, 0)

end

/-- Of every default that is printed something is read. -/
theorem exists_readsDefault (words : schema.EnumsWords) :
    ∃ read, ∀ value : InputValue, value.IsWritable → schema.ReadsDefault read value := by
  have each (type : TypeRef) (default : Json) : ∃ other, ∀ literal,
      schema.defaultLiteral default type = .ok literal → default.IsWritable →
        Lexes Breaks literal (SpellsValue · other) := by
    by_cases prints : ∃ literal, schema.defaultLiteral default type = .ok literal ∧
        default.IsWritable
    · rcases prints with ⟨literal, printed, writable⟩
      rcases isLiteralText_of_defaultLiteral words printed writable with ⟨other, lexes⟩
      refine ⟨other, fun again printedAgain _ => ?_⟩
      obtain rfl := Except.ok.inj (printed.symm.trans printedAgain)
      exact lexes
    · exact ⟨.null, fun literal printed writable => absurd ⟨literal, printed, writable⟩ prints⟩
  choose read reads using each
  exact ⟨read, fun value writable default literal isGiven printed =>
    reads value.type default literal printed (writable.default default isGiven)⟩

/-! ## What is read of the parts -/

theorem HasWritable.enumsWords (has : schema.HasWritable) : schema.EnumsWords := by
  intro name among isEnum text isValue
  rcases exists_enum_of_inputForm? isEnum isValue with
    ⟨type, values, value, member, form, valueMember, rfl⟩
  rcases has.types _ member with builtIn | writable
  · rcases List.mem_map.mp builtIn with ⟨_, _, same⟩
    cases same
    cases form
  · have formed := (writable (by simp [form])).form
    rw [form] at formed
    exact (formed value valueMember).name

/-- The names of what is not in the front, beside those in it. -/
theorem nodup_keys_beside {α : Type} {map front : OrderedMap α} {name : α → String}
    {listed : List α} (distinct : (OrderedMap.keys map).Nodup)
    (named : ∀ entry ∈ map, name entry.2 = entry.1) (frontDistinct : (OrderedMap.keys front).Nodup)
    (perm : listed.Perm (map.values.filter fun value =>
      !(OrderedMap.keys front).contains (name value))) :
    (OrderedMap.keys front ++ listed.map name).Nodup := by
  have names : map.values.map name = OrderedMap.keys map := by
    rw [OrderedMap.values, OrderedMap.keys, List.map_map]
    exact List.map_congr_left fun entry member => named entry member
  have listedDistinct : (listed.map name).Nodup := by
    rw [(perm.map name).nodup_iff]
    exact (names ▸ distinct).sublist (List.filter_sublist.map name)
  refine List.nodup_append.mpr ⟨frontDistinct, listedDistinct, ?_⟩
  rintro _ isFront _ isListed rfl
  rcases List.mem_map.mp isListed with ⟨value, member, rfl⟩
  have isNew := (List.mem_filter.mp (perm.mem_iff.mp member)).2
  simp [isFront] at isNew

theorem IsKeyed.nodup_typeEntries (keyed : schema.IsKeyed) (read : TypeRef → Json → Json) :
    (OrderedMap.keys (initial.types ++ schema.typeEntries read)).Nodup := by
  have names : OrderedMap.keys (schema.typeEntries read) = schema.ownTypes.map SchemaType.name := by
    rw [typeEntries, OrderedMap.keys, List.map_map]
    rfl
  rw [OrderedMap.keys_append, names]
  exact nodup_keys_beside keyed.types keyed.typesNamed (by decide) (List.mergeSort_perm _ _)

theorem IsKeyed.nodup_directiveEntries (keyed : schema.IsKeyed) (read : TypeRef → Json → Json) :
    (OrderedMap.keys (initial.directives ++ schema.directiveEntries read)).Nodup := by
  have names : OrderedMap.keys (schema.directiveEntries read) =
      schema.ownDirectives.map SchemaDirective.name := by
    rw [directiveEntries, OrderedMap.keys, List.map_map]
    rfl
  rw [OrderedMap.keys_append, names]
  exact nodup_keys_beside keyed.directives keyed.directivesNamed (by decide)
    (List.mergeSort_perm _ _)

/-- A schema that is read from a printed one has what is read of its types and directives beside the
built-in ones. -/
theorem exists_reread {source text : String} {again : Schema}
    (accepted : ofSource source = .ok schema)
    (filled : ∀ type ∈ schema.ownTypes, type.form ≠ .union [])
    (printed : schema.print = .ok text) (acceptedAgain : ofSource text = .ok again) :
    ∃ read, again.types = initial.types ++ schema.typeEntries read ∧
      again.directives = initial.directives ++ schema.directiveEntries read := by
  have keyed := ofSource_isKeyed accepted
  have writable := ofSource_isWritable accepted filled
  rcases exists_readsDefault (ofSource_hasWritable accepted).enumsWords with ⟨read, reads⟩
  have spelled := beforeEnd_of_lexes (lexes_print writable (fun value own =>
    reads value (writable.of_mem_ownInputs own)) printed) trivial
  rcases Document.exists_parse_of_takes (Parser.takes_document_of_spellsPart spelled) with
    ⟨parsed, parses, _, same⟩
  have added := @addDefinitions_of_parts _ _ initial same (by
    rw [schema.typeNames_partsReread, ← OrderedMap.keys_append]
    exact keyed.nodup_typeEntries read)
  rw [schema.foldl_addPart_partsReread _ (keyed.nodup_typeEntries read)
    (keyed.nodup_directiveEntries read)] at added
  rcases ofSource_eq_ok.mp acceptedAgain with ⟨parsedAgain, parsesAgain, _, defines⟩
  obtain rfl := Except.ok.inj (parses.symm.trans parsesAgain)
  rcases ofDefinitions_eq_ok.mp defines with ⟨defined, addedAgain, rfl, _, _⟩
  obtain rfl := Except.ok.inj (added.symm.trans addedAgain)
  refine ⟨read, ?_, ?_⟩
  · rw [withConventionalRoots_setRoots_types]
  · exact setRoots_directives _ _

end Schema

/-! ## Descriptions -/

/-- The description of a type and those of its fields or values. -/
def SchemaType.descriptions (type : SchemaType) : Option String × List (String × Option String) :=
  (type.description, type.form.descriptions)

/-- What is read of the descriptions of a type that is printed: its fields or values are indented. -/
def SchemaType.rereadDescriptions (type : SchemaType) :
    Option String × List (String × Option String) :=
  (type.description.map (Text.reread ""),
    type.form.descriptions.map fun entry => (entry.1, entry.2.map (Text.reread "  ")))

theorem fieldDescriptions_mapValues {α : Type} {description : α → Option String} {change : α → α}
    {next : String → String} (fields : OrderedMap α)
    (changes : ∀ field, description (change field) = (description field).map next) :
    fieldDescriptions description ((OrderedMap.sortedByKey fields).mapValues change) =
      (fieldDescriptions description fields).map fun entry => (entry.1, entry.2.map next) := by
  rw [fieldDescriptions, OrderedMap.sortedByKey_mapValues, OrderedMap.sortedByKey_sortedByKey,
    OrderedMap.mapValues, fieldDescriptions, List.map_map, List.map_map]
  exact List.map_congr_left fun entry _ => congrArg (entry.1, ·) (changes entry.2)

theorem TypeForm.descriptions_reread (read : TypeRef → Json → Json) (form : TypeForm) :
    (form.reread read).descriptions =
      form.descriptions.map fun entry => (entry.1, entry.2.map (Text.reread "  ")) := by
  cases form with
  | object fields interfaces => exact fieldDescriptions_mapValues fields fun _ => rfl
  | interface fields interfaces => exact fieldDescriptions_mapValues fields fun _ => rfl
  | inputObject fields => exact fieldDescriptions_mapValues fields fun _ => rfl
  | enum values =>
      have sorted := @mergeSort_mergeSort_name _ EnumValue.name values
      rw [TypeForm.reread, descriptions, descriptions, List.map_map, ← List.map_mergeSort, sorted,
        List.map_map]
      · rfl
      · exact fun _ _ _ _ => rfl
  | _ => rfl

theorem SchemaType.descriptions_reread (read : TypeRef → Json → Json) (type : SchemaType) :
    (type.reread read).descriptions = type.rereadDescriptions := by
  rw [SchemaType.descriptions, SchemaType.rereadDescriptions, SchemaType.reread,
    TypeForm.descriptions_reread]

/-! ### Descriptions that survive -/

/-- A description that is read as it was before it was printed. -/
def DescriptionSurvives (indentation : String) (description : Option String) : Prop :=
  ∀ text ∈ description, Text.Survives indentation text

theorem descriptionSurvives_iff {indentation : String} {description : Option String}
    (wide : indentation = "" ∨ 2 ≤ indentation.length) (writable : DescriptionWritable description) :
    description.map (Text.reread indentation) = description ↔
      DescriptionSurvives indentation description := by
  cases description with
  | none => simp [DescriptionSurvives]
  | some text =>
      rw [Option.map_some, Option.some_inj, Text.reread_eq_iff (writable text rfl).2 wide]
      simp [DescriptionSurvives]

/-- What is read of a description is written like it if it survives in turn. -/
theorem descriptionLines_reread {indentation : String} {description : Option String}
    (writable : DescriptionWritable description)
    (survives : DescriptionSurvives indentation (description.map (Text.reread indentation))) :
    Schema.descriptionLines indentation (description.map (Text.reread indentation)) =
      Schema.descriptionLines indentation description := by
  cases description with
  | none => rfl
  | some text =>
      have trimmed := (writable text rfl).2
      have survives := survives (Text.reread indentation text) rfl
      cases several : text.toList.contains '\n' with
      | false => rw [Option.map_some, Text.reread_eq_of_survives trimmed several survives]
      | true =>
          rw [Option.map_some, Schema.descriptionLines, Schema.descriptionLines,
            Text.contains_reread trimmed, textLines, textLines,
            Text.lines_reread_of_survives trimmed several survives]
          simp only [several, if_true]

/-- All descriptions of the type survive. -/
def SchemaType.DescriptionsSurvive (type : SchemaType) : Prop :=
  DescriptionSurvives "" type.description ∧
    ∀ entry ∈ type.form.descriptions, DescriptionSurvives "  " entry.2

theorem TypeForm.IsWritable.descriptions {form : TypeForm} (writable : form.IsWritable) :
    ∀ entry ∈ form.descriptions, DescriptionWritable entry.2 := by
  intro entry member
  cases form with
  | object fields interfaces =>
      rcases List.mem_map.mp member with ⟨field, known, rfl⟩
      exact (writable.1.writable field (List.mem_mergeSort.mp known)).description
  | interface fields interfaces =>
      rcases List.mem_map.mp member with ⟨field, known, rfl⟩
      exact (writable.1.writable field (List.mem_mergeSort.mp known)).description
  | inputObject fields =>
      rcases List.mem_map.mp member with ⟨field, known, rfl⟩
      exact (InputsWritable.writable writable field (List.mem_mergeSort.mp known)).description
  | enum values =>
      rcases List.mem_map.mp member with ⟨value, known, rfl⟩
      exact (writable value (List.mem_mergeSort.mp known)).description
  | _ => cases member

/-- A type is read with the same descriptions exactly if they survive. -/
theorem SchemaType.rereadDescriptions_eq_iff {type : SchemaType} (writable : type.IsWritable) :
    type.rereadDescriptions = type.descriptions ↔ type.DescriptionsSurvive := by
  have inside : (type.form.descriptions.map fun entry =>
      (entry.1, entry.2.map (Text.reread "  "))) = type.form.descriptions ↔
      ∀ entry ∈ type.form.descriptions, DescriptionSurvives "  " entry.2 := by
    conv_lhs => rhs; rw [← List.map_id type.form.descriptions]
    refine List.map_inj_left.trans (forall₂_congr fun entry member => ?_)
    rw [← descriptionSurvives_iff (.inr (by decide)) (writable.form.descriptions entry member)]
    exact ⟨congrArg Prod.snd, fun same => Prod.ext rfl same⟩
  rw [rereadDescriptions, descriptions, Prod.mk.injEq, inside,
    descriptionSurvives_iff (.inl rfl) writable.description]
  rfl

namespace Schema

variable {schema again : Schema}

/-- Every type and every directive has the same descriptions in the other schema. -/
structure KeepsDescriptions (schema again : Schema) : Prop where
  types : ∀ type ∈ schema.types.values,
    (again.type? type.name).map SchemaType.descriptions = some type.descriptions
  directives : ∀ directive ∈ schema.directives.values,
    (again.directive? directive.name).map SchemaDirective.description = some directive.description

/-- The descriptions that are printed survive, and what is built in has no other ones than it is built
in with, as it is not printed. -/
structure DescriptionsSurvive (schema : Schema) : Prop where
  types : ∀ type ∈ schema.ownTypes, type.DescriptionsSurvive
  directives : ∀ directive ∈ schema.ownDirectives, DescriptionSurvives "" directive.description
  builtInTypes : ∀ type ∈ schema.types.values, type.name ∈ builtInScalars →
    (initial.type? type.name).map SchemaType.descriptions = some type.descriptions
  builtInDirectives : ∀ directive ∈ schema.directives.values, directive.name ∈ builtInDirectives →
    (initial.directive? directive.name).map SchemaDirective.description =
      some directive.description

section

variable {source text : String} (accepted : ofSource source = .ok schema)
  (filled : ∀ type ∈ schema.ownTypes, type.form ≠ .union [])
  (printed : schema.print = .ok text) (acceptedAgain : ofSource text = .ok again)

include accepted filled printed acceptedAgain

/-- The own types are read again, and what is built in is as it was at first. -/
theorem descriptions_type?_again :
    (∀ type ∈ schema.ownTypes,
      (again.type? type.name).map SchemaType.descriptions = some type.rereadDescriptions) ∧
    ∀ name ∈ builtInScalars, again.type? name = initial.type? name := by
  rcases exists_reread accepted filled printed acceptedAgain with ⟨read, types, _⟩
  have keyed := ofSource_isKeyed acceptedAgain
  refine ⟨fun type own => ?_, fun name builtIn => ?_⟩
  · have member : (type.name, type.reread read) ∈ again.types := by
      rw [types]
      exact List.mem_append_right _ (List.mem_map_of_mem own)
    rw [type?, OrderedMap.find?_of_mem keyed.types member, Option.map_some,
      SchemaType.descriptions_reread]
  · have member : (name, builtInScalar name) ∈ initial.types := List.mem_map_of_mem builtIn
    have isAgain : (name, builtInScalar name) ∈ again.types := by
      rw [types]
      exact List.mem_append_left _ member
    rw [type?, OrderedMap.find?_of_mem keyed.types isAgain, type?,
      OrderedMap.find?_of_mem isKeyed_initial.types member]

theorem description_directive?_again :
    (∀ directive ∈ schema.ownDirectives,
      (again.directive? directive.name).map SchemaDirective.description =
        some (directive.description.map (Text.reread ""))) ∧
    ∀ name ∈ builtInDirectives, again.directive? name = initial.directive? name := by
  rcases exists_reread accepted filled printed acceptedAgain with ⟨read, _, directives⟩
  have keyed := ofSource_isKeyed acceptedAgain
  refine ⟨fun directive own => ?_, fun name builtIn => ?_⟩
  · have member : (directive.name, directive.reread read) ∈ again.directives := by
      rw [directives]
      exact List.mem_append_right _ (List.mem_map_of_mem own)
    rw [directive?, OrderedMap.find?_of_mem keyed.directives member]
    rfl
  · have known : name ∈ OrderedMap.keys initial.directives := builtIn
    rcases List.mem_map.mp known with ⟨entry, member, rfl⟩
    have isAgain : entry ∈ again.directives := by
      rw [directives]
      exact List.mem_append_left _ member
    rw [directive?, OrderedMap.find?_of_mem keyed.directives isAgain, directive?,
      OrderedMap.find?_of_mem isKeyed_initial.directives member]

/-- A schema that is read again has the descriptions that it had exactly if they survive. -/
theorem keepsDescriptions_iff_survive :
    schema.KeepsDescriptions again ↔ schema.DescriptionsSurvive := by
  rcases descriptions_type?_again accepted filled printed acceptedAgain with ⟨types, scalars⟩
  rcases description_directive?_again accepted filled printed acceptedAgain with
    ⟨directives, builtIn⟩
  have writable := ofSource_isWritable accepted filled
  refine ⟨fun keeps => ⟨?_, ?_, ?_, ?_⟩, fun survive => ⟨?_, ?_⟩⟩
  · intro type own
    have same := (types type own).symm.trans (keeps.types type (mem_ownTypes.mp own).1)
    exact (SchemaType.rereadDescriptions_eq_iff (writable.types type own)).mp (Option.some.inj same)
  · intro directive own
    have same := (directives directive own).symm.trans
      (keeps.directives directive (mem_ownDirectives.mp own).1)
    exact (descriptionSurvives_iff (.inl rfl) (writable.directives directive own).description).mp
      (Option.some.inj same)
  · intro type listed isBuiltIn
    rw [← scalars type.name isBuiltIn]
    exact keeps.types type listed
  · intro directive listed isBuiltIn
    rw [← builtIn directive.name isBuiltIn]
    exact keeps.directives directive listed
  · intro type listed
    by_cases isBuiltIn : type.name ∈ builtInScalars
    · rw [scalars type.name isBuiltIn, survive.builtInTypes type listed isBuiltIn]
    · have own : type ∈ schema.ownTypes := mem_ownTypes.mpr ⟨listed, by simpa using isBuiltIn⟩
      rw [types type own, (SchemaType.rereadDescriptions_eq_iff (writable.types type own)).mpr
        (survive.types type own)]
  · intro directive listed
    by_cases isBuiltIn : directive.name ∈ builtInDirectives
    · rw [builtIn directive.name isBuiltIn, survive.builtInDirectives directive listed isBuiltIn]
    · have own : directive ∈ schema.ownDirectives :=
        mem_ownDirectives.mpr ⟨listed, by simpa using isBuiltIn⟩
      rw [directives directive own, (descriptionSurvives_iff (.inl rfl)
        (writable.directives directive own).description).mpr (survive.directives directive own)]

/-- No union loses its members. -/
theorem filled_again : ∀ type ∈ again.ownTypes, type.form ≠ .union [] := by
  rcases exists_reread accepted filled printed acceptedAgain with ⟨read, types, _⟩
  intro other own
  have isOwn := mem_ownTypes.mp own
  rw [types, OrderedMap.values, List.map_append, List.mem_append] at isOwn
  rcases isOwn with ⟨builtIn | listed, isNew⟩
  · have isBuiltIn : ∀ type ∈ initial.types.values,
        builtInScalars.contains type.name = true := by decide
    rw [isBuiltIn other builtIn] at isNew
    cases isNew
  · simp only [typeEntries, List.map_map, List.mem_map, Function.comp_apply] at listed
    rcases listed with ⟨type, known, rfl⟩
    have isFilled := filled type known
    cases form : type.form with
    | union members =>
        rw [SchemaType.reread, form, TypeForm.reread, Ne, TypeForm.union.injEq, inOrder,
          ← List.length_eq_zero_iff, List.length_mergeSort, List.length_eq_zero_iff]
        rintro rfl
        exact isFilled form
    | _ =>
        rw [SchemaType.reread, form]
        intro same
        cases same

/-- A schema that says the same is printed with the same text if what is read of the descriptions
survives. -/
theorem print_again_of_survive (same : again.content = schema.content)
    (survive : again.DescriptionsSurvive) : again.print = .ok text := by
  have keyed := ofSource_isKeyed accepted
  have keyedAgain := ofSource_isKeyed acceptedAgain
  have writable := ofSource_isWritable accepted filled
  have types := (descriptions_type?_again accepted filled printed acceptedAgain).1
  have directives := (description_directive?_again accepted filled printed acceptedAgain).1
  have forms : again.inputForm? = schema.inputForm? := by
    rw [← inputForm?_content keyedAgain, same, inputForm?_content keyed]
  rcases print_eq_ok.mp printed with ⟨directiveBlocks, typeBlocks, directed, typed, rfl⟩
  refine print_eq_ok.mpr ⟨directiveBlocks, typeBlocks, ?_, ?_, ?_⟩
  · have contents := ownDirectives_content keyedAgain
    rw [same, ownDirectives_content keyed] at contents
    refine forall₂_of_map_eq contents.symm directed ?_
    intro directive own other ownAgain alike lines
    have described := directives directive own
    have named : other.name = directive.name := by
      simpa only [SchemaDirective.content] using congrArg SchemaDirective.name alike
    rw [← named, keyedAgain.directive?_name (mem_ownDirectives.mp ownAgain).1, Option.map_some,
      Option.some_inj] at described
    have survives := survive.directives other ownAgain
    refine directiveLines_again forms alike ?_
    rw [described] at survives ⊢
    exact descriptionLines_reread (writable.directives directive own).description survives
  · have contents := ownTypes_content keyedAgain
    rw [same, ownTypes_content keyed] at contents
    refine forall₂_of_map_eq contents.symm typed ?_
    intro type own other ownAgain alike lines
    have described := types type own
    have named : other.name = type.name := by
      simpa only [SchemaType.content] using congrArg SchemaType.name alike
    rw [← named, keyedAgain.type?_name (mem_ownTypes.mp ownAgain).1, Option.map_some,
      Option.some_inj, SchemaType.descriptions, SchemaType.rereadDescriptions, Prod.mk.injEq]
      at described
    rcases described with ⟨front, fronts⟩
    have isWritable := writable.types type own
    rcases survive.types other ownAgain with ⟨survives, surviveFields⟩
    refine typeLines_again forms alike ?_ ?_
    · rw [front] at survives ⊢
      exact descriptionLines_reread isWritable.description survives
    · rw [fronts, List.forall_mem_map] at surviveFields
      rw [fieldFronts, fronts, fieldFronts, List.map_map]
      exact List.map_congr_left fun entry member => descriptionLines_reread
        (isWritable.form.descriptions entry member) (surviveFields entry member)
  · rw [← rootLines_content again, same, rootLines_content]

/-- What is read of the descriptions of a printed schema: those of types and directives are read as
they are written without an indentation, those of fields and values as they are written with one. A
schema that is read again has the descriptions that it had exactly if all of them survive this, and
if it says the same, it is printed with the same text exactly if its own ones survive. All unions
must have members: `SwallowedWord.type_lost` is what can happen otherwise. -/
theorem descriptions_exact :
    (∀ type ∈ schema.ownTypes,
      (again.type? type.name).map SchemaType.descriptions = some type.rereadDescriptions) ∧
    (∀ directive ∈ schema.ownDirectives,
      (again.directive? directive.name).map SchemaDirective.description =
        some (directive.description.map (Text.reread ""))) ∧
    (schema.KeepsDescriptions again ↔ schema.DescriptionsSurvive) ∧
    (again.content = schema.content → (again.print = .ok text ↔ again.DescriptionsSurvive)) := by
  refine ⟨(descriptions_type?_again accepted filled printed acceptedAgain).1,
    (description_directive?_again accepted filled printed acceptedAgain).1,
    keepsDescriptions_iff_survive accepted filled printed acceptedAgain, fun same =>
      ⟨fun printedAgain => ?_,
        print_again_of_survive accepted filled printed acceptedAgain same⟩⟩
  have keyedAgain := ofSource_isKeyed acceptedAgain
  refine (keepsDescriptions_iff_survive acceptedAgain
    (filled_again accepted filled printed acceptedAgain) printedAgain acceptedAgain).mp ⟨?_, ?_⟩
  · intro type listed
    rw [keyedAgain.type?_name listed, Option.map_some]
  · intro directive listed
    rw [keyedAgain.directive?_name listed, Option.map_some]

end

/-- The schema of the source is printed and read again, and the test holds of both. -/
def readsAgain (source : String) (test : Schema → Schema → Bool) : Bool :=
  (ofSource source).toOption.any fun schema => schema.print.toOption.any fun text =>
    (ofSource text).toOption.any fun again => test schema again

theorem exists_of_readsAgain {source : String} {test : Schema → Schema → Bool}
    (passes : readsAgain source test = true) : ∃ schema text again, ofSource source = .ok schema ∧
      schema.print = .ok text ∧ ofSource text = .ok again ∧ test schema again = true := by
  rcases exists_ok_of_any passes with ⟨schema, accepted, passes⟩
  rcases exists_ok_of_any passes with ⟨text, printed, passes⟩
  rcases exists_ok_of_any passes with ⟨again, acceptedAgain, passes⟩
  exact ⟨schema, text, again, accepted, printed, acceptedAgain, passes⟩

/-- Whether all types and all directives have the same descriptions in the other schema. -/
def keepsDescriptions (schema again : Schema) : Bool :=
  (schema.types.values.all fun type =>
    (again.type? type.name).map SchemaType.descriptions == some type.descriptions) &&
    schema.directives.values.all fun directive =>
      (again.directive? directive.name).map SchemaDirective.description ==
        some directive.description

theorem keepsDescriptions_iff {schema again : Schema} :
    schema.keepsDescriptions again = true ↔ schema.KeepsDescriptions again := by
  rw [keepsDescriptions, Bool.and_eq_true, List.all_eq_true, List.all_eq_true]
  simp only [beq_iff_eq]
  exact ⟨fun keeps => ⟨keeps.1, keeps.2⟩, fun keeps => ⟨keeps.types, keeps.directives⟩⟩

instance (schema again : Schema) : Decidable (schema.KeepsDescriptions again) :=
  decidable_of_iff _ keepsDescriptions_iff

namespace DescribedShop

/-- A directive with a description of one line, and a type and its field with one of two lines and
of one. -/
def source : String :=
  "\"On sale\" directive @sale on FIELD_DEFINITION\n" ++
  "\"\"\"\nThe shop\n  and its goods\n\"\"\" type Query \x7b \"All goods\" goods: Int \x7d"

theorem evaluation : readsAgain source (fun schema again =>
    schema.ownTypes.all (fun type => !type.form matches .union []) &&
      decide (schema.KeepsDescriptions again)) = true := by
  decide +kernel

theorem descriptions_survive : ∃ schema text again, ofSource source = .ok schema ∧
    schema.print = .ok text ∧ ofSource text = .ok again ∧ schema.KeepsDescriptions again ∧
      schema.DescriptionsSurvive := by
  rcases exists_of_readsAgain evaluation with
    ⟨schema, text, again, accepted, printed, acceptedAgain, passes⟩
  rcases Bool.and_eq_true_iff.mp passes with ⟨allFilled, keeps⟩
  have filled : ∀ type ∈ schema.ownTypes, type.form ≠ .union [] := by
    intro type own empty
    have isFilled := List.all_eq_true.mp allFilled type own
    rw [empty] at isFilled
    cases isFilled
  exact ⟨schema, text, again, accepted, printed, acceptedAgain, of_decide_eq_true keeps,
    (descriptions_exact accepted filled printed acceptedAgain).2.2.1.mp (of_decide_eq_true keeps)⟩

end DescribedShop

namespace IndentedLines

/-- A field with a description of two lines. -/
def source : String :=
  "type Query \x7b \"\"\"one\ntwo\"\"\" a: Int \x7d"

theorem evaluation : readsAgain source (fun schema again =>
    schema.print.toOption != again.print.toOption &&
      !decide (schema.KeepsDescriptions again)) = true := by
  decide +kernel

/-- The second line is indented further each time. -/
theorem descriptions_change : ∃ schema text again, ofSource source = .ok schema ∧
    schema.print = .ok text ∧ ofSource text = .ok again ∧ ¬schema.KeepsDescriptions again ∧
      schema.print.toOption ≠ again.print.toOption := by
  rcases exists_of_readsAgain evaluation with
    ⟨schema, text, again, accepted, printed, acceptedAgain, passes⟩
  rcases Bool.and_eq_true_iff.mp passes with ⟨differs, changes⟩
  refine ⟨schema, text, again, accepted, printed, acceptedAgain, ?_, by simpa using differs⟩
  simpa using changes

end IndentedLines

namespace SwallowedWord

/-- A union without members, followed by a type whose name begins another definition. -/
def source : String :=
  "union U type schema \x7b query: type \x7d type type \x7b a: Int \x7d"

/-- What is printed of the three types. -/
def blocks : List (List String) :=
  [["union U = "], ["type schema \x7b", "  query: type", "\x7d"],
    ["type type \x7b", "  a: Int", "\x7d"]]

theorem evaluation : (ofSource source).toOption.any (fun schema =>
      let own := schema.types.values.filter fun type => !builtInScalars.contains type.name
      own.map SchemaType.name == ["U", "schema", "type"] &&
        (own.mapM schema.typeLines).toOption.any (· == blocks) && schema.ownDirectives.isEmpty &&
        schema.rootLines.isEmpty) = true ∧
    (ofSource (blocksText blocks)).toOption.any (fun again => (again.type? "schema").isNone) =
      true := by
  decide +kernel

/-- That every own union has a member does not follow from the text being read again: where one has
none, the word `type` behind its equals sign is read as its member, and what that word began, as the
root types. -/
theorem type_lost : ∃ schema again, ofSource source = .ok schema ∧
    schema.print = .ok (blocksText blocks) ∧ ofSource (blocksText blocks) = .ok again ∧
      ∃ type ∈ schema.ownTypes, again.type? type.name = none := by
  rcases evaluation with ⟨prints, reads⟩
  rcases exists_ok_of_any prints with ⟨schema, accepted, prints⟩
  rcases exists_ok_of_any reads with ⟨again, acceptedAgain, lost⟩
  simp only [Bool.and_eq_true, beq_iff_eq, List.isEmpty_iff] at prints
  rcases prints with ⟨⟨⟨names, lines⟩, noDirectives⟩, noRoots⟩
  rcases exists_ok_of_any lines with ⟨made, each, same⟩
  obtain rfl := eq_of_beq same
  generalize ownIs : schema.types.values.filter (fun type => !builtInScalars.contains type.name) =
    own at names each
  -- The types stand in the order of their names already, so sorting them changes nothing.
  have ordered : (own.map SchemaType.name).Pairwise fun left right =>
      decide (left ≤ right) = true := names ▸ by decide
  have own_eq : schema.ownTypes = own := by
    rw [ownTypes, ownIs]
    exact List.mergeSort_of_pairwise (List.pairwise_map.mp ordered)
  have printed : schema.print = .ok (blocksText blocks) := by
    refine print_eq_ok.mpr ⟨[], blocks, noDirectives ▸ .nil, own_eq ▸ mapM_eq_ok.mp each, ?_⟩
    rw [noRoots]
    rfl
  have named : "schema" ∈ own.map SchemaType.name := by simp [names]
  rcases List.mem_map.mp named with ⟨type, isOwn, isSchema⟩
  exact ⟨schema, again, accepted, printed, acceptedAgain, type, own_eq ▸ isOwn,
    isSchema ▸ Option.isNone_iff_eq_none.mp lost⟩

end SwallowedWord

end Schema

end GraphQL

import GraphQL.Proofs.Decimal.Numbers
import GraphQL.Proofs.Plan.Arguments
import GraphQL.Proofs.Schema.Arrangement
import GraphQL.Proofs.Schema.Origin

/-!
# What the text of arguments tells

The merging rule compares the arguments of two fields by one text. In a document that is read
without errors this text tells the arguments, with one exception: a number above all finite ones has
the text of the enum value `inf`. So fields have one text exactly if they have the same arguments
once such a number is taken for that name, and where there is no such number, the arguments of both
fields resolve alike.
-/

namespace GraphQL

open Grammar Merging

/-! ## What a literal shows -/

namespace Literal

mutual

/-- The literal without its places and with a name for a number above all finite ones. -/
def shown : Literal → Literal
  | float value _ =>
      if value = Decimal.infinity then enum ⟨"inf", ⟨0, 0⟩⟩ else float value ⟨0, 0⟩
  | list items _ => list (itemsShown items) ⟨0, 0⟩
  | object fields _ => object (fieldsShown fields) ⟨0, 0⟩
  | literal => literal.unplaced

def itemsShown : List Literal → List Literal
  | [] => []
  | item :: rest => shown item :: itemsShown rest

def fieldsShown : List (Name × Literal) → List (Name × Literal)
  | [] => []
  | (name, value) :: rest => (name.unplaced, shown value) :: fieldsShown rest

end

theorem floatText_infinity : floatText Decimal.infinity = "inf" := by
  decide +kernel

mutual

theorem print_shown (literal : Literal) : literal.shown.print = literal.print := by
  cases literal with
  | float value span =>
      rw [shown]
      split
      · rename_i same
        rw [same]
        exact floatText_infinity.symm
      · rfl
  | list items span => rw [shown, print, print, printItems_shown]
  | object fields span => rw [shown, print, print, printFields_shown]
  | _ => rfl

theorem printItems_shown (items : List Literal) :
    printItems (itemsShown items) = printItems items := by
  cases items with
  | nil => rfl
  | cons first rest =>
      rw [itemsShown, printItems, printItems, print_shown, printItems_shown]

theorem printFields_shown (fields : List (Name × Literal)) :
    printFields (fieldsShown fields) = printFields fields := by
  cases fields with
  | nil => rfl
  | cons first rest =>
      rcases first with ⟨name, value⟩
      rw [fieldsShown, printFields, printFields, print_shown, printFields_shown]
      rfl

end

mutual

theorem unplaced_shown (literal : Literal) : literal.shown.unplaced = literal.shown := by
  cases literal with
  | float value span =>
      rw [shown]
      split <;> rfl
  | list items span => rw [shown, unplaced, itemsUnplaced_shown]
  | object fields span => rw [shown, unplaced, fieldsUnplaced_shown]
  | _ => rfl

theorem itemsUnplaced_shown (items : List Literal) :
    itemsUnplaced (itemsShown items) = itemsShown items := by
  cases items with
  | nil => rfl
  | cons first rest => rw [itemsShown, itemsUnplaced, unplaced_shown, itemsUnplaced_shown]

theorem fieldsUnplaced_shown (fields : List (Name × Literal)) :
    fieldsUnplaced (fieldsShown fields) = fieldsShown fields := by
  cases fields with
  | nil => rfl
  | cons first rest =>
      rcases first with ⟨name, value⟩
      rw [fieldsShown, fieldsUnplaced, unplaced_shown, fieldsUnplaced_shown]
      rfl

end

/-- No number that is above all finite ones. -/
def isBounded : Literal → Bool
  | float value _ => decide (value ≠ Decimal.infinity)
  | _ => true

mutual

/-- Other numbers are shown as they are. -/
theorem shown_of_bounded (literal : Literal) (bounded : literal.everywhere isBounded = true) :
    literal.shown = literal.unplaced := by
  cases literal with
  | float value span =>
      rw [shown, if_neg (of_decide_eq_true bounded)]
      rfl
  | list items span =>
      rw [everywhere, Bool.and_eq_true] at bounded
      rw [shown, unplaced, itemsShown_of_bounded items bounded.2]
  | object fields span =>
      rw [everywhere, Bool.and_eq_true] at bounded
      rw [shown, unplaced, fieldsShown_of_bounded fields bounded.2]
  | _ => rfl

theorem itemsShown_of_bounded (items : List Literal)
    (bounded : itemsEverywhere isBounded items = true) :
    itemsShown items = itemsUnplaced items := by
  cases items with
  | nil => rfl
  | cons first rest =>
      rw [itemsEverywhere, Bool.and_eq_true] at bounded
      rw [itemsShown, itemsUnplaced, shown_of_bounded first bounded.1,
        itemsShown_of_bounded rest bounded.2]

theorem fieldsShown_of_bounded (fields : List (Name × Literal))
    (bounded : fieldsEverywhere isBounded fields = true) :
    fieldsShown fields = fieldsUnplaced fields := by
  cases fields with
  | nil => rfl
  | cons first rest =>
      rcases first with ⟨name, value⟩
      rw [fieldsEverywhere, Bool.and_eq_true] at bounded
      rw [fieldsShown, fieldsUnplaced, shown_of_bounded value bounded.1,
        fieldsShown_of_bounded rest bounded.2]

end

/-! ## Literals that tokens spell -/

/-- A number is no error value. -/
def isNumber : Literal → Bool
  | float value _ => !value.isNaN
  | _ => true

/-- Names and numbers are as tokens spell them. -/
def isLexical (literal : Literal) : Bool :=
  literal.everywhere hasTokenNames && literal.everywhere isNumber

theorem isLexical_list {items : List Literal} {span : Span} :
    (list items span).isLexical = true ↔ ∀ item ∈ items, item.isLexical = true := by
  simp only [isLexical, everywhere, hasTokenNames, isNumber, Bool.true_and, Bool.and_eq_true,
    itemsEverywhere_iff]
  exact forall₂_and.symm

theorem isLexical_object {fields : List (Name × Literal)} {span : Span} :
    (object fields span).isLexical = true ↔
      ∀ field ∈ fields, field.1.isWord = true ∧ field.2.isLexical = true := by
  simp only [isLexical, everywhere, hasTokenNames, isNumber, Bool.true_and, Bool.and_eq_true,
    fieldsEverywhere_iff, List.all_eq_true, forall₂_and, and_assoc]

mutual

theorem isLegible_shown (literal : Literal) (lexical : literal.isLexical = true) :
    literal.shown.isLegible = true := by
  cases literal with
  | float value span =>
      have isNumber : value.isNaN = false := by
        simpa [isLexical, everywhere, hasTokenNames, Literal.isNumber] using lexical
      rw [shown]
      split
      · decide
      · rename_i other
        have signed := (Decimal.isFinite_or_infinite isNumber).imp_right (Or.resolve_left · other)
        simpa [isLegible, everywhere, hasTokenNames, isSignedNumber] using signed
  | list items span =>
      rw [shown, isLegible_list]
      exact isLegible_itemsShown items (isLexical_list.mp lexical)
  | object fields span =>
      rw [shown, isLegible_object]
      exact isLegible_fieldsShown fields (isLexical_object.mp lexical)
  | _ =>
      rw [isLexical, Bool.and_eq_true] at lexical
      exact Bool.and_eq_true_iff.mpr ⟨lexical.1, rfl⟩

theorem isLegible_itemsShown (items : List Literal)
    (lexical : ∀ item ∈ items, item.isLexical = true) :
    ∀ item ∈ itemsShown items, item.isLegible = true := by
  cases items with
  | nil => simp [itemsShown]
  | cons first rest =>
      rw [List.forall_mem_cons] at lexical
      rw [itemsShown, List.forall_mem_cons]
      exact ⟨isLegible_shown first lexical.1, isLegible_itemsShown rest lexical.2⟩

theorem isLegible_fieldsShown (fields : List (Name × Literal))
    (lexical : ∀ field ∈ fields, field.1.isWord = true ∧ field.2.isLexical = true) :
    ∀ field ∈ fieldsShown fields, field.1.isWord = true ∧ field.2.isLegible = true := by
  cases fields with
  | nil => simp [fieldsShown]
  | cons first rest =>
      rcases first with ⟨name, value⟩
      rw [List.forall_mem_cons] at lexical
      rw [fieldsShown, List.forall_mem_cons]
      exact ⟨⟨lexical.1.1, isLegible_shown value lexical.1.2⟩, isLegible_fieldsShown rest lexical.2⟩

end

end Literal

/-! ## The arguments of two fields -/

namespace FieldSelection

/-- Names and numbers of the arguments are as tokens spell them. -/
def isLexical (field : FieldSelection) : Bool :=
  field.arguments.all fun argument => argument.name.isWord && argument.value.isLexical

/-- The field with what its arguments show. -/
def shown (field : FieldSelection) : FieldSelection :=
  { field with
    arguments := field.arguments.map fun argument =>
      { argument with value := argument.value.shown } }

theorem isLegible_shown {field : FieldSelection} (lexical : field.isLexical = true) :
    field.shown.isLegible = true := by
  refine List.all_eq_true.mpr fun argument member => ?_
  rcases List.mem_map.mp member with ⟨given, isGiven, rfl⟩
  have both := List.all_eq_true.mp lexical given isGiven
  rw [Bool.and_eq_true] at both ⊢
  exact both.imp_right (Literal.isLegible_shown _)

theorem literalArguments_shown (field : FieldSelection) :
    field.shown.literalArguments = field.literalArguments.mapValues Literal.shown := by
  rw [literalArguments, literalArguments, ← OrderedMap.ofPairs_map, shown, List.map_map,
    List.map_map]
  rfl

theorem mapValues_print_shown (arguments : OrderedMap Literal) :
    (arguments.mapValues Literal.shown).mapValues Literal.print =
      arguments.mapValues Literal.print := by
  rw [OrderedMap.mapValues_mapValues]
  exact congrArg _ (funext Literal.print_shown)

theorem argumentsText_shown (field : FieldSelection) :
    argumentsText field.shown = argumentsText field := by
  rw [argumentsText_eq_listed, argumentsText_eq_listed, literalArguments_shown,
    mapValues_print_shown]

/-- Fields have one text of their arguments exactly if they show the same arguments. -/
theorem argumentsText_eq_iff {left right : FieldSelection} (leftLexical : left.isLexical = true)
    (rightLexical : right.isLexical = true) :
    argumentsText left = argumentsText right ↔
      ∀ name, (left.literalArguments.find? name).map Literal.shown =
        (right.literalArguments.find? name).map Literal.shown := by
  have lookup (field : FieldSelection) (name : String) :
      (field.literalArguments.mapValues Literal.shown).find? name =
        (field.literalArguments.find? name).map Literal.shown :=
    OrderedMap.find?_mapValues _ _ _
  constructor
  · intro same name
    rw [← argumentsText_shown left, ← argumentsText_shown right] at same
    have found := literalArguments_of_argumentsText (isLegible_shown leftLexical)
      (isLegible_shown rightLexical) same name
    simpa only [literalArguments_shown, lookup, Option.map_map, Function.comp_def,
      Literal.unplaced_shown] using found
  · intro same
    have distinct (field : FieldSelection) :
        (OrderedMap.keys (field.literalArguments.mapValues Literal.shown)).Nodup := by
      rw [OrderedMap.keys_mapValues]
      exact field.nodup_literalArguments
    have sorted : (left.literalArguments.mapValues Literal.shown).sortedByKey =
        (right.literalArguments.mapValues Literal.shown).sortedByKey := by
      refine OrderedMap.sortedByKey_of_perm ?_ (distinct left)
      exact OrderedMap.perm_of_find?_eq (distinct left) (distinct right) fun name => by
        rw [lookup, lookup, same]
    have texts := congrArg (OrderedMap.mapValues · Literal.print) sorted
    simp only [← OrderedMap.sortedByKey_mapValues, mapValues_print_shown] at texts
    rw [argumentsText_eq_listed, argumentsText_eq_listed, texts]

end FieldSelection

/-! ## Literals and fields that are read -/

/-- Each of some items that were read one after the other was read from scanned tokens. -/
theorem exists_of_spellsEach {α : Type} {spells : List Token → α → Prop} {parts : List (List Token)}
    {items : List α} (scanned : Token.AllScanned parts.flatten)
    (each : List.Forall₂ spells parts items) :
    ∀ item ∈ items, ∃ used, Token.AllScanned used ∧ spells used item := by
  induction each with
  | nil => simp
  | cons first others ih =>
      rw [List.flatten_cons] at scanned
      exact List.forall_mem_cons.mpr
        ⟨⟨_, scanned.mono (by simp), first⟩, ih (scanned.mono (by simp))⟩

theorem Grammar.IsName.isWord {token : Token} {name : Name} (isName : IsName token name)
    (scanned : token.IsWord) : name.isWord = true :=
  (scanned isName.1 name.text isName.2).2.1

/-- A name other than the words of literals is an enum value. -/
theorem Grammar.IsName.isEnumValue {token : Token} {name : Name} (isName : IsName token name)
    (scanned : token.IsWord)
    (other : token.kind ≠ .keyword .trueValue ∧ token.kind ≠ .keyword .falseValue ∧
      token.kind ≠ .keyword .nullValue) : name.isEnumValue = true := by
  rcases scanned isName.1 name.text isName.2 with ⟨kind, continues, starts⟩
  have noWord : name.text ∉ ["true", "false", "null"] := by
    intro member
    simp only [List.mem_cons, List.not_mem_nil, or_false] at member
    rw [kind] at other
    rcases member with same | same | same
    · exact other.1 (by rw [same]; decide)
    · exact other.2.1 (by rw [same]; decide)
    · exact other.2.2 (by rw [same]; decide)
  simp [Name.isEnumValue, Name.isWord, continues, starts, noWord]

namespace Literal

mutual

/-- A literal that was read has names and numbers as tokens spell them. -/
theorem isLexical_of_spells {constant : Bool} {literal : Literal} {tokens : List Token}
    (scanned : Token.AllScanned tokens) (spelled : SpellsLiteral constant tokens literal) :
    literal.isLexical = true := by
  cases spelled with
  | var allowed isDollar isName =>
      have word := isName.isWord (scanned _ (by simp)).1
      simpa [isLexical, everywhere, hasTokenNames, isNumber] using word
  | enum isName other =>
      have value := isName.isEnumValue (scanned _ (by simp)).1 other
      simpa [isLexical, everywhere, hasTokenNames, isNumber] using value
  | float isFloat reads =>
      show (true && !(Decimal.readNearest _).isNaN) = true
      rw [Decimal.isNaN_readNearest]
      rfl
  | list between =>
      rcases between with ⟨opens, ⟨each⟩, closes⟩
      exact isLexical_list.mpr (isLexical_of_spellsItems (scanned.mono (by simp)) each)
  | object between =>
      rcases between with ⟨opens, ⟨each⟩, closes⟩
      exact isLexical_object.mpr (isLexical_of_spellsFields (scanned.mono (by simp)) each)
  | _ => rfl

theorem isLexical_of_spellsItems {constant : Bool} {items : List Literal}
    {parts : List (List Token)} (scanned : Token.AllScanned parts.flatten)
    (each : List.Forall₂ (SpellsLiteral constant) parts items) :
    ∀ item ∈ items, item.isLexical = true := by
  cases each with
  | nil => simp
  | cons first others =>
      rw [List.flatten_cons] at scanned
      exact List.forall_mem_cons.mpr ⟨isLexical_of_spells (scanned.mono (by simp)) first,
        isLexical_of_spellsItems (scanned.mono (by simp)) others⟩

theorem isLexical_of_spellsFields {constant : Bool} {fields : List (Name × Literal)}
    {parts : List (List Token)} (scanned : Token.AllScanned parts.flatten)
    (each : List.Forall₂ (SpellsField constant) parts fields) :
    ∀ field ∈ fields, field.1.isWord = true ∧ field.2.isLexical = true := by
  cases each with
  | nil => simp
  | cons first others =>
      rcases first with ⟨isName, isColon, inner⟩
      rw [List.flatten_cons] at scanned
      refine List.forall_mem_cons.mpr ⟨⟨isName.isWord (scanned _ (by simp)).1, ?_⟩, ?_⟩
      · exact isLexical_of_spells (scanned.mono (by grind)) inner
      · exact isLexical_of_spellsFields (scanned.mono (by grind)) others

end

end Literal

/-- The arguments of all fields in the set are as tokens spell them. -/
def SelectionSet.IsLexical (selections : SelectionSet) : Prop :=
  ∀ head inner, .field head inner ∈ selections.items → head.isLexical = true

theorem FieldSelection.isLexical_of_spells {tokens : List Token} {head : FieldSelection}
    (scanned : Token.AllScanned tokens) (spelled : SpellsFieldHead tokens head) :
    head.isLexical = true := by
  rcases spelled with ⟨key, given, directed⟩
  refine List.all_eq_true.mpr fun argument member => ?_
  rcases given with ⟨⟩ | ⟨opens, ⟨each⟩, closes⟩
  · cases member
  · rcases exists_of_spellsEach (scanned.mono (by grind)) each argument member with
      ⟨used, scanned, isName, isColon, inner⟩
    rw [Bool.and_eq_true]
    exact ⟨isName.isWord (scanned _ (by simp)).1,
      Literal.isLexical_of_spells (scanned.mono (by grind)) inner⟩

mutual

theorem Selection.isLexical_of_spells {tokens : List Token} {selection : Selection}
    (scanned : Token.AllScanned tokens) (spelled : SpellsSelection tokens selection) :
    ∀ inner ∈ selection.sets, inner.IsLexical := by
  cases spelled with
  | leaf field => simp [Selection.sets]
  | field field inner => exact SelectionSet.isLexical_of_spells (scanned.mono (by simp)) inner
  | conditioned isSpread isOn isName directed inner =>
      exact SelectionSet.isLexical_of_spells (scanned.mono (by grind)) inner
  | unconditioned isSpread directed inner =>
      exact SelectionSet.isLexical_of_spells (scanned.mono (by grind)) inner
  | spread isSpread isName other directed => simp [Selection.sets]

/-- All sets in a set that was read have arguments as tokens spell them. -/
theorem SelectionSet.isLexical_of_spells {tokens : List Token} {selections : SelectionSet}
    (scanned : Token.AllScanned tokens) (spelled : SpellsSelectionSet tokens selections) :
    ∀ inner ∈ selections.sets, inner.IsLexical := by
  rcases spelled with ⟨⟨opens, ⟨each⟩, closes⟩⟩
  rw [SelectionSet.sets, List.forall_mem_cons]
  refine ⟨fun head inner member => ?_,
    Selection.isLexical_of_spellsEach (scanned.mono (by simp)) each⟩
  rcases exists_of_spellsEach (scanned.mono (by simp)) each _ member with ⟨used, scanned, spelled⟩
  cases spelled with
  | leaf field => exact FieldSelection.isLexical_of_spells scanned field
  | field field inner => exact FieldSelection.isLexical_of_spells (scanned.mono (by simp)) field

theorem Selection.isLexical_of_spellsEach {parts : List (List Token)} {items : List Selection}
    (scanned : Token.AllScanned parts.flatten) (each : List.Forall₂ SpellsSelection parts items) :
    ∀ inner ∈ Selection.listSets items, inner.IsLexical := by
  cases each with
  | nil => simp [Selection.listSets]
  | cons first others =>
      rw [List.flatten_cons] at scanned
      rw [Selection.listSets, List.forall_mem_append]
      exact ⟨Selection.isLexical_of_spells (scanned.mono (by simp)) first,
        Selection.isLexical_of_spellsEach (scanned.mono (by simp)) others⟩

end

namespace Document

variable {source : String} {parsed : ParsedDocument}

/-- The fields of a document that is read without errors have arguments as tokens spell them. -/
theorem isLexical_of_parse (parses : parse source = .ok parsed) (quiet : parsed.hasErrors = false) :
    ∀ selections ∈ parsed.document.sets, selections.IsLexical := by
  intro selections member
  rcases List.mem_flatMap.mp member with ⟨definition, known, inside⟩
  have read := (isRead_of_parse parses quiet definition known).2
  cases definition with
  | operation definition =>
      rcases read rfl with ⟨tokens, scanned, ⟨⟨inner⟩ | ⟨opens, named, declared, directed, inner⟩⟩⟩
      · exact SelectionSet.isLexical_of_spells scanned inner _ inside
      · exact SelectionSet.isLexical_of_spells (scanned.mono (by grind)) inner _ inside
  | fragment definition =>
      rcases read rfl with
        ⟨tokens, scanned, ⟨⟩ | ⟨opens, isName, isOn, isCondition, directed, inner⟩⟩
      exact SelectionSet.isLexical_of_spells (scanned.mono (by grind)) inner _ inside
  | schema definition => cases inside
  | type definition => cases inside
  | directive definition => cases inside

/-- Names in the arguments of a document that is read without errors are as tokens spell them. -/
theorem hasTokenNames_of_parse (parses : parse source = .ok parsed)
    (quiet : parsed.hasErrors = false) : parsed.document.HasTokenNames := by
  intro argument member
  rcases List.mem_flatMap.mp member with ⟨selections, known, inside⟩
  rcases List.mem_flatMap.mp inside with ⟨selection, selectionMem, given⟩
  cases selection with
  | field head inner =>
      have lexical := isLexical_of_parse parses quiet selections known head inner selectionMem
      have both := List.all_eq_true.mp lexical argument given
      rw [Bool.and_eq_true, Literal.isLexical, Bool.and_eq_true] at both
      exact ⟨both.1, both.2.1⟩
  | spread head => cases given
  | inlineFragment head inner => cases given

/-- The fields that are selected in a document, at any depth. -/
def fields (document : Document) : List FieldSelection :=
  document.sets.flatMap fun selections => selections.items.filterMap fun selection =>
    match selection with
    | .field head _ => some head
    | _ => none

theorem isLexical_of_mem_fields (parses : parse source = .ok parsed)
    (quiet : parsed.hasErrors = false) {field : FieldSelection}
    (member : field ∈ parsed.document.fields) : field.isLexical = true := by
  rcases List.mem_flatMap.mp member with ⟨selections, known, inside⟩
  rcases List.mem_filterMap.mp inside with ⟨selection, selectionMem, isField⟩
  cases selection with
  | field head inner =>
      cases isField
      exact isLexical_of_parse parses quiet selections known _ inner selectionMem
  | spread head => cases isField
  | inlineFragment head inner => cases isField

end Document

/-- No argument of the field has a number above all finite ones. -/
def FieldSelection.isBounded (field : FieldSelection) : Bool :=
  field.arguments.all fun argument => argument.value.everywhere Literal.isBounded

namespace FieldSelection

theorem shown_of_isBounded {field : FieldSelection} (bounded : field.isBounded = true)
    (name : String) : (field.literalArguments.find? name).map Literal.shown =
      (field.literalArguments.find? name).map Literal.unplaced := by
  cases found : field.literalArguments.find? name with
  | none => rfl
  | some value =>
      have member := OrderedMap.mem_of_mem_ofPairs (OrderedMap.mem_of_find? found)
      rcases List.mem_map.mp member with ⟨argument, given, same⟩
      cases same
      exact congrArg some
        (Literal.shown_of_bounded _ (List.all_eq_true.mp bounded argument given))

end FieldSelection

namespace Document

/-- Two fields of a document without errors have one text of their arguments exactly if they show
the same arguments, so where no number is above all finite ones, exactly if they have the same
arguments apart from places; the arguments then resolve alike for all variables. -/
theorem argumentsText_exact {source : String} {parsed : ParsedDocument}
    (parses : parse source = .ok parsed) (quiet : parsed.hasErrors = false)
    {left right : FieldSelection} (leftMem : left ∈ parsed.document.fields)
    (rightMem : right ∈ parsed.document.fields) :
    (argumentsText left = argumentsText right ↔
        ∀ name, (left.literalArguments.find? name).map Literal.shown =
          (right.literalArguments.find? name).map Literal.shown) ∧
      (left.isBounded = true → right.isBounded = true →
        (argumentsText left = argumentsText right ↔
            ∀ name, (left.literalArguments.find? name).map Literal.unplaced =
              (right.literalArguments.find? name).map Literal.unplaced) ∧
          (argumentsText left = argumentsText right →
            ∀ name bindings, (left.planArguments.find? name).map (PlanValue.resolve bindings) =
              (right.planArguments.find? name).map (PlanValue.resolve bindings))) := by
  have exact := FieldSelection.argumentsText_eq_iff (isLexical_of_mem_fields parses quiet leftMem)
    (isLexical_of_mem_fields parses quiet rightMem)
  refine ⟨exact, fun leftBounded rightBounded => ?_⟩
  simp only [FieldSelection.shown_of_isBounded leftBounded,
    FieldSelection.shown_of_isBounded rightBounded] at exact
  refine ⟨exact, fun same name bindings => ?_⟩
  rw [FieldSelection.find?_planArguments, FieldSelection.find?_planArguments, exact.mp same name]

namespace Rewritten

/-- The values are written in two ways, and one field has its argument twice. -/
def source : String :=
  "\x7b f(a: [1.50, \x7bn: \"s\"\x7d, -1e400, X]) f(a: $v, a: [1.5 \x7bn: \"s\"\x7d -1e999 X]) \x7d"

def isEvaluated (fields : List FieldSelection) : Bool :=
  match fields with
  | [left, right] =>
      left.isBounded && right.isBounded && argumentsText left == argumentsText right
  | _ => false

theorem evaluation : (Document.parse source).toOption.any (fun parsed =>
    !parsed.hasErrors && isEvaluated parsed.document.fields) = true := by
  decide +kernel

theorem same_arguments : ∃ parsed left right, Document.parse source = .ok parsed ∧
    parsed.document.fields = [left, right] ∧ argumentsText left = argumentsText right ∧
      ∀ name, (left.literalArguments.find? name).map Literal.unplaced =
        (right.literalArguments.find? name).map Literal.unplaced := by
  rcases exists_ok_of_any evaluation with ⟨parsed, parses, evaluated⟩
  simp only [Bool.and_eq_true, Bool.not_eq_true', isEvaluated] at evaluated
  rcases evaluated with ⟨quiet, evaluated⟩
  split at evaluated
  · rename_i left right listed
    simp only [Bool.and_eq_true, beq_iff_eq] at evaluated
    rcases evaluated with ⟨⟨leftBounded, rightBounded⟩, same⟩
    have leftMem : left ∈ parsed.document.fields := by simp [listed]
    have rightMem : right ∈ parsed.document.fields := by simp [listed]
    have exact := argumentsText_exact parses quiet leftMem rightMem
    exact ⟨parsed, left, right, parses, listed, same,
      (exact.2 leftBounded rightBounded).1.mp same⟩
  · cases evaluated

end Rewritten

namespace InfiniteNumber

/-- A number beyond the greatest one and the enum value of its name. -/
def source : String :=
  "\x7b f(a: 1e400) f(a: inf) \x7d"

/-- The argument resolves to null on one field and to a text on the other one. -/
def resolvesApart (left right : FieldSelection) : Bool :=
  ((left.planArguments.find? "a").map (PlanValue.resolve []) matches some .null) &&
    ((right.planArguments.find? "a").map (PlanValue.resolve []) matches some (.string "inf"))

def isEvaluated (fields : List FieldSelection) : Bool :=
  match fields with
  | [left, right] => argumentsText left == argumentsText right && resolvesApart left right
  | _ => false

theorem evaluation : (Document.parse source).toOption.any (fun parsed =>
    !parsed.hasErrors && isEvaluated parsed.document.fields) = true := by
  decide +kernel

/-- The fields have one text of their arguments, and other arguments. -/
theorem same_text : ∃ parsed left right, Document.parse source = .ok parsed ∧
    parsed.hasErrors = false ∧ parsed.document.fields = [left, right] ∧
      argumentsText left = argumentsText right ∧ resolvesApart left right = true ∧
        ¬ ∀ name, (left.literalArguments.find? name).map Literal.unplaced =
          (right.literalArguments.find? name).map Literal.unplaced := by
  rcases exists_ok_of_any evaluation with ⟨parsed, parses, evaluated⟩
  simp only [Bool.and_eq_true, Bool.not_eq_true', isEvaluated] at evaluated
  rcases evaluated with ⟨quiet, evaluated⟩
  split at evaluated
  · rename_i left right listed
    simp only [Bool.and_eq_true, beq_iff_eq] at evaluated
    refine ⟨parsed, left, right, parses, quiet, listed, evaluated.1, evaluated.2, fun same => ?_⟩
    have apart := evaluated.2
    rw [resolvesApart, left.find?_planArguments, same "a", ← right.find?_planArguments,
      Bool.and_eq_true] at apart
    rcases apart with ⟨isNull, isText⟩
    split at isNull
    · rename_i found
      rw [found] at isText
      cases isText
    · cases isNull
  · cases evaluated

end InfiniteNumber

end Document

end GraphQL

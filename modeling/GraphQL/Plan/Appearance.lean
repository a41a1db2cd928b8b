import GraphQL.Document
import GraphQL.Plan
import GraphQL.Schema

/-!
# Appearances of fields

A field can appear several times in the selections of one object: side by side, in inline fragments
and in the fragments spread there. The appearances that apply to an object type are collected in the
order of the document, each with the conditions on the way to it and the fragments entered on the
way.

A fragment is not entered again on a way that has entered it, so the number of fragments bounds how
often collecting goes from a spread to its fragment.
-/

namespace GraphQL

namespace PlanValue

mutual

def ofLiteral : Literal → PlanValue
  | .var name => var name.text
  | .int value _ => int value
  | .float value _ => float value
  | .string value _ => string value
  | .boolean value _ => boolean value
  | .null _ => null
  | .enum name => enum name.text
  | .list items _ => list (itemsOfLiterals items)
  | .object fields _ => object (OrderedMap.ofPairs (fieldsOfLiterals fields))

def itemsOfLiterals : List Literal → List PlanValue
  | [] => []
  | item :: rest => ofLiteral item :: itemsOfLiterals rest

def fieldsOfLiterals : List (Name × Literal) → List (String × PlanValue)
  | [] => []
  | (name, value) :: rest => (name.text, ofLiteral value) :: fieldsOfLiterals rest

end

end PlanValue

/-- The condition that a directive puts on its selection, if it puts one. -/
def Directive.condition? (directive : Directive) : Option PlanCondition := do
  let kind ←
    if directive.name.text = "skip" then some ConditionKind.skip
    else if directive.name.text = "include" then some ConditionKind.inclusion
    else none
  let argument ← directive.arguments.find? (·.name.text == "if")
  return { kind, value := .ofLiteral argument.value }

/-- One place at which a field is selected. -/
structure Appearance where
  field : FieldSelection
  selections : Option SelectionSet
  definition : OutputField
  conditions : List PlanCondition
  fragments : List String

/-- A fragment applies to an object type if it has no condition, or if the condition names the type
or an abstract type that it belongs to. -/
def Schema.conditionApplies (schema : Schema) (condition : Option String) (object : SchemaType) :
    Bool :=
  match condition with
  | none => true
  | some name =>
      match schema.type? name with
      | none => false
      | some type =>
          type.name == object.name
            || (type.isAbstract && schema.isPossibleType type.name object.name)

/-- The conditions on a selection: those on the way to it and its own. -/
def Selection.conditions (inherited : List PlanCondition) (selection : Selection) :
    List PlanCondition :=
  inherited ++ selection.directives.filterMap Directive.condition?

section

variable (schema : Schema) (object : SchemaType)
  (enter : List PlanCondition → List String → FragmentSpread → List Appearance)

mutual

/-- The appearances in one selection; `enter` gives those in the fragment of a spread. -/
def selectionAppearances (inherited : List PlanCondition) (fragments : List String) :
    Selection → List Appearance
  | .field head selections =>
      match schema.field? object.name head.name.text with
      | none => []
      | some definition =>
          [{ field := head
             selections
             definition
             conditions := (Selection.field head selections).conditions inherited
             fragments }]
  | .inlineFragment head selections =>
      if schema.conditionApplies (head.typeCondition.map Name.text) object then
        setAppearances ((Selection.inlineFragment head selections).conditions inherited) fragments
          selections
      else []
  | .spread head => enter ((Selection.spread head).conditions inherited) fragments head

def setAppearances (inherited : List PlanCondition) (fragments : List String) :
    SelectionSet → List Appearance
  | ⟨_, items, _⟩ => itemAppearances inherited fragments items

def itemAppearances (inherited : List PlanCondition) (fragments : List String) :
    List Selection → List Appearance
  | [] => []
  | selection :: rest =>
      selectionAppearances inherited fragments selection ++ itemAppearances inherited fragments rest

end

end

/-- The appearances in a selection set when fragments are entered at most so often in a row. -/
def appearancesWithin (schema : Schema) (document : Document) (object : SchemaType) :
    Nat → List PlanCondition → List String → SelectionSet → List Appearance
  | 0, inherited, fragments, selections =>
      setAppearances schema object (fun _ _ _ => []) inherited fragments selections
  | bound + 1, inherited, fragments, selections =>
      setAppearances schema object
        (fun conditions entered spread =>
          match document.fragment? spread.name.text with
          | none => []
          | some fragment =>
              if entered.contains spread.name.text
                  || !schema.conditionApplies (some fragment.typeCondition.text) object then []
              else
                appearancesWithin schema document object bound conditions
                  (entered ++ [spread.name.text]) fragment.selections)
        inherited fragments selections

/-- The appearances of fields in a selection set that apply to an object type. -/
def appearances (schema : Schema) (document : Document) (object : SchemaType)
    (inherited : List PlanCondition) (fragments : List String) (selections : SelectionSet) :
    List Appearance :=
  appearancesWithin schema document object document.fragments.length inherited fragments selections

/-- Appearances by response key. -/
def groupAppearances (found : List Appearance) : OrderedMap (List Appearance) :=
  found.foldl
    (fun groups appearance =>
      OrderedMap.alter groups appearance.field.responseKey fun group =>
        group.getD [] ++ [appearance])
    []

end GraphQL

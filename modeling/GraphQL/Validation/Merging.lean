import GraphQL.Document.Printer
import GraphQL.Document.Selections
import GraphQL.Validation.Rule

/-!
# The rule on merging fields

Two appearances of a response key conflict when they can apply to one object but select different
fields or give different arguments. Appearances on two distinct object types exclude one another;
their selections are still compared, and exclude one another as well.

The search for conflicts goes from one comparison to those that it leads to. What has been compared
is remembered: a pair of fragments by its names, whichever comes first, and a selection set with a
fragment by the number of the set and the name, both together with whether the sides exclude one
another. Comparisons that are remembered lead to nothing, and all others go deeper into the
selections of the document; that bounds the search.
-/

namespace GraphQL
namespace Merging

/-- An appearance of a field with the type it is selected on. -/
structure FieldRecord where
  field : FieldSelection
  selections : Option SelectionSet
  definition : Option OutputField
  parent : SchemaType

/-- The fields of a selection set by response key and the fragments spread in it, those of inline
fragments included. A field without selections has an empty grouping without a number. -/
structure Grouping where
  set : Option Nat := none
  fields : OrderedMap (List FieldRecord) := []
  spreads : List String := []

namespace Grouping

def addField (grouping : Grouping) (record : FieldRecord) : Grouping :=
  { grouping with
    fields := grouping.fields.alter record.field.responseKey fun group =>
      group.getD [] ++ [record] }

def addSpread (grouping : Grouping) (name : String) : Grouping :=
  { grouping with spreads := grouping.spreads ++ [name] }

mutual

def addSelection (schema : Schema) (owner : SchemaType) (grouping : Grouping) :
    Selection → Grouping
  | .field head selections =>
      grouping.addField
        { field := head
          selections
          definition := schema.field? owner.name head.name.text
          parent := owner }
  | .spread head => grouping.addSpread head.name.text
  | .inlineFragment head selections =>
      match head.typeCondition with
      | none => addSelectionSet schema owner grouping selections
      | some condition =>
          match schema.type? condition.text with
          | none => grouping
          | some type => addSelectionSet schema type grouping selections

def addSelectionSet (schema : Schema) (owner : SchemaType) (grouping : Grouping) :
    SelectionSet → Grouping
  | ⟨_, items, _⟩ => addSelections schema owner grouping items

def addSelections (schema : Schema) (owner : SchemaType) (grouping : Grouping) :
    List Selection → Grouping
  | [] => grouping
  | selection :: rest =>
      addSelections schema owner (addSelection schema owner grouping selection) rest

end

/-- The grouping of a selection set on a type. -/
def ofSelectionSet (schema : Schema) (owner : SchemaType) (selections : SelectionSet) : Grouping :=
  addSelectionSet schema owner { set := some selections.id } selections

end Grouping

/-- What the search remembers. -/
structure Memory where
  groupings : List (Nat × Grouping) := []
  comparedFragments : List (String × String × Bool) := []
  comparedWithFragment : List (Option Nat × String × Bool) := []
  fragmentPairsCompared : Nat := 0

namespace Memory

/-- The grouping of some selections, remembered by the number of the set. -/
def grouping (memory : Memory) (schema : Schema) (owner : SchemaType) :
    Option SelectionSet → Grouping × Memory
  | none => ({}, memory)
  | some selections =>
      match memory.groupings.lookup selections.id with
      | some known => (known, memory)
      | none =>
          let grouping := Grouping.ofSelectionSet schema owner selections
          (grouping, { memory with groupings := (selections.id, grouping) :: memory.groupings })

end Memory

/-- A comparison to make. With `exclusive`, the two sides never apply to one object. -/
inductive Comparison where
  | fields (key : String) (left right : FieldRecord) (exclusive : Bool)
  | withFragment (grouping : Grouping) (fragment : String) (exclusive : Bool)
  | fragments (left right : String) (exclusive : Bool)

/-- The comparisons of every two different members of a list. -/
def pairsWithin {α β : Type} (compare : α → α → β) : List α → List β
  | [] => []
  | first :: rest => rest.map (compare first) ++ pairsWithin compare rest

/-- The comparisons of the fields of two groupings under equal keys. -/
def between (left right : OrderedMap (List FieldRecord)) (exclusive : Bool) : List Comparison :=
  List.flatMap
    (fun (key, lefts) =>
      match right.find? key with
      | none => []
      | some rights =>
          lefts.flatMap fun first => rights.map fun second =>
            Comparison.fields key first second exclusive)
    left

/-- The comparisons within one selection set: its fields with one another, then each of its
fragments with the fields and with the fragments after it. -/
def within (grouping : Grouping) : List Comparison :=
  List.flatMap
      (fun (key, records) =>
        pairsWithin (fun first second => Comparison.fields key first second false) records)
      grouping.fields
    ++ fragmentsWithin grouping.spreads
where
  fragmentsWithin : List String → List Comparison
    | [] => []
    | fragment :: rest =>
        .withFragment grouping fragment false
          :: rest.map (fun other => .fragments fragment other false)
          ++ fragmentsWithin rest

/-- The comparisons of the selections of two fields. -/
def betweenSelections (left right : Grouping) (exclusive : Bool) : List Comparison :=
  between left.fields right.fields exclusive
    ++ left.spreads.map (fun fragment => .withFragment right fragment exclusive)
    ++ right.spreads.map (fun fragment => .withFragment left fragment exclusive)
    ++ left.spreads.flatMap fun first =>
      right.spreads.map fun second => .fragments first second exclusive

/-- The arguments of a field in the order of their names; the last of a repeated name counts. -/
def argumentsText (field : FieldSelection) : String :=
  let arguments := OrderedMap.ofPairs (field.arguments.map fun argument =>
    (argument.name.text, argument.value.print))
  let texts := arguments.sortedByKey.map fun (name, value) => name ++ ": " ++ value
  "\x7b" ++ ", ".intercalate texts ++ "\x7d"

/-- Two texts in order. -/
def sortedPair (left right : String) : String × String :=
  if left ≤ right then (left, right) else (right, left)

def conflict (code : DiagnosticCode) (key what left right : String) (spans : List Span) :
    Diagnostic :=
  let (first, second) := sortedPair left right
  Rule.finding code
    ("Field '" ++ key ++ "' has " ++ what ++ " conflict: " ++ first ++ " or " ++ second ++ "?") spans

/-- Two records are on distinct object types. -/
def onDistinctObjects (left right : FieldRecord) : Bool :=
  left.parent.name != right.parent.name && left.parent.isObject && right.parent.isObject

/-- The conflicts between two appearances of a key that can apply to one object. -/
def conflicts (key : String) (left right : FieldRecord) : List Diagnostic :=
  let spans := [left.field.span, right.field.span]
  let fields :=
    if left.field.name.text = right.field.name.text then []
    else [conflict .fieldConflict key "a field" left.field.name.text right.field.name.text spans]
  let leftArguments := argumentsText left.field
  let rightArguments := argumentsText right.field
  let arguments :=
    if leftArguments = rightArguments then []
    else [conflict .argumentConflict key "an argument" leftArguments rightArguments spans]
  fields ++ arguments

/-- The type that the selections of a record apply to. -/
def FieldRecord.returnType? (record : FieldRecord) (schema : Schema) : Option SchemaType :=
  record.definition.bind fun definition => schema.type? definition.type.innermost

/-- What a comparison finds, where it leads and what is remembered after it. -/
structure Outcome where
  found : List Diagnostic := []
  next : List Comparison := []
  memory : Memory

/-- Compares two appearances of a key. -/
def compareFields (context : RuleContext) (memory : Memory) (key : String)
    (left right : FieldRecord) (exclusive : Bool) : Outcome :=
  let exclusive := exclusive || onDistinctObjects left right
  let found := if exclusive then [] else conflicts key left right
  match left.returnType? context.schema, right.returnType? context.schema with
  | some leftType, some rightType =>
      let (leftGrouping, memory) := memory.grouping context.schema leftType left.selections
      let (rightGrouping, memory) := memory.grouping context.schema rightType right.selections
      { found, next := betweenSelections leftGrouping rightGrouping exclusive, memory }
  | _, _ => { found, memory }

/-- The fragment with a name and the type of its condition, if both are known. -/
def fragmentWithType? (context : RuleContext) (name : String) :
    Option (FragmentDefinition × SchemaType) := do
  let fragment ← context.fragment? name
  let type ← context.type? fragment.typeCondition.text
  return (fragment, type)

/-- Compares a grouping with a fragment and the fragments spread in it. -/
def compareWithFragment (context : RuleContext) (memory : Memory) (grouping : Grouping)
    (fragment : String) (exclusive : Bool) : Outcome :=
  let entry := (grouping.set, fragment, exclusive)
  if memory.comparedWithFragment.contains entry then { memory }
  else
    let memory := { memory with comparedWithFragment := entry :: memory.comparedWithFragment }
    match fragmentWithType? context fragment with
    | none => { memory }
    | some (definition, type) =>
        let (other, memory) := memory.grouping context.schema type (some definition.selections)
        { next := between grouping.fields other.fields exclusive
            ++ other.spreads.map fun nested => .withFragment grouping nested exclusive
          memory }

/-- Compares two fragments and the fragments spread in them. -/
def compareFragments (context : RuleContext) (memory : Memory) (left right : String)
    (exclusive : Bool) : Outcome :=
  if left = right then { memory }
  else
    let (first, second) := sortedPair left right
    let entry := (first, second, exclusive)
    if memory.comparedFragments.contains entry then { memory }
    else
      let memory := { memory with comparedFragments := entry :: memory.comparedFragments }
      match fragmentWithType? context left, fragmentWithType? context right with
      | some (leftDefinition, leftType), some (rightDefinition, rightType) =>
          let memory := { memory with fragmentPairsCompared := memory.fragmentPairsCompared + 1 }
          let (leftGrouping, memory) :=
            memory.grouping context.schema leftType (some leftDefinition.selections)
          let (rightGrouping, memory) :=
            memory.grouping context.schema rightType (some rightDefinition.selections)
          { next := between leftGrouping.fields rightGrouping.fields exclusive
              ++ rightGrouping.spreads.map (fun nested => .fragments left nested exclusive)
              ++ leftGrouping.spreads.map (fun nested => .fragments nested right exclusive)
            memory }
      | _, _ => { memory }

/-- Makes one comparison. -/
def step (context : RuleContext) (memory : Memory) : Comparison → Outcome
  | .fields key left right exclusive => compareFields context memory key left right exclusive
  | .withFragment grouping fragment exclusive =>
      compareWithFragment context memory grouping fragment exclusive
  | .fragments left right exclusive => compareFragments context memory left right exclusive

/-- Makes a comparison and all that it leads to, at most so many in a row. -/
def explore (context : RuleContext) :
    Nat → Comparison → Memory × List Diagnostic → Memory × List Diagnostic
  | 0, _, state => state
  | depth + 1, comparison, (memory, found) =>
      let outcome := step context memory comparison
      outcome.next.foldl (fun state next => explore context depth next state)
        (outcome.memory, found ++ outcome.found)

/-- How many comparisons can follow one another. Each either is remembered, of which there are at
most so many as there are pairs of names and pairs of a set with a name, exclusive or not, or goes
one set deeper, which it can do at most so often as there are sets before the next one that is
remembered. -/
def depthBound (document : Document) : Nat :=
  let sets := document.setCount
  let names := document.spreadCount
  let remembered := 2 * names * names + 2 * (sets + 1) * names
  (remembered + 1) * (sets + 2)

/-- Makes the comparisons within a selection set on a type. -/
def exploreSet (context : RuleContext) (memory : Memory) (owner : SchemaType)
    (selections : SelectionSet) : Memory × List Diagnostic :=
  let (grouping, memory) := memory.grouping context.schema owner (some selections)
  let depth := depthBound context.document
  (within grouping).foldl (fun state next => explore context depth next state) (memory, [])

/-- The selection set that an event opens, with its type. -/
def openedSet? : Event → Option (SchemaType × SelectionSet)
  | .operation definition (some root) => some (root, definition.selections)
  | .fragment definition (some type) => some (type, definition.selections)
  | .field _ (some selections) _ _ (some type) => some (type, selections)
  | _ => none

end Merging

/-- Fields with equal response keys can be merged. -/
def Rule.fieldsWillMerge : Rule where
  Memory := Merging.Memory
  initial := {}
  watch context memory event :=
    match Merging.openedSet? event with
    | none => (memory, [])
    | some (owner, selections) => Merging.exploreSet context memory owner selections

end GraphQL

import GraphQL.Plan.Building
import GraphQL.Proofs.Document.Printer
import GraphQL.Proofs.Fragments
import GraphQL.Proofs.OrderedMap
import GraphQL.Proofs.Walk

/-!
# Arguments of merged fields

Fields are merged if their arguments have one text in the order of their names. That text tells the
value of every argument, so a plan can take the arguments from any of the fields.
-/

namespace GraphQL

open Merging

namespace PlanValue

mutual

theorem ofLiteral_unplaced (literal : Literal) :
    ofLiteral literal.unplaced = ofLiteral literal := by
  cases literal with
  | list items span => rw [Literal.unplaced, ofLiteral, ofLiteral, itemsOfLiterals_unplaced]
  | object fields span => rw [Literal.unplaced, ofLiteral, ofLiteral, fieldsOfLiterals_unplaced]
  | _ => rfl

theorem itemsOfLiterals_unplaced (items : List Literal) :
    itemsOfLiterals (Literal.itemsUnplaced items) = itemsOfLiterals items := by
  cases items with
  | nil => rfl
  | cons first rest =>
      rw [Literal.itemsUnplaced, itemsOfLiterals, itemsOfLiterals, ofLiteral_unplaced,
        itemsOfLiterals_unplaced]

theorem fieldsOfLiterals_unplaced (fields : List (Name × Literal)) :
    fieldsOfLiterals (Literal.fieldsUnplaced fields) = fieldsOfLiterals fields := by
  cases fields with
  | nil => rfl
  | cons first rest =>
      rcases first with ⟨name, value⟩
      rw [Literal.fieldsUnplaced, fieldsOfLiterals, fieldsOfLiterals, ofLiteral_unplaced,
        fieldsOfLiterals_unplaced]
      rfl

end

end PlanValue

/-- The arguments are as tokens spell them, and their numbers are finite. -/
def FieldSelection.isReadable (field : FieldSelection) : Bool :=
  field.arguments.all fun argument => argument.name.isWord && argument.value.isReadable

namespace FieldSelection

/-- The arguments as they are written, by name; the last of a repeated name counts. -/
def literalArguments (field : FieldSelection) : OrderedMap Literal :=
  OrderedMap.ofPairs (field.arguments.map fun argument => (argument.name.text, argument.value))

theorem planArguments_eq (field : FieldSelection) :
    field.planArguments = field.literalArguments.mapValues PlanValue.ofLiteral := by
  rw [literalArguments, ← OrderedMap.ofPairs_map, List.map_map]
  rfl

/-- The arguments in the order of their names, as the fields of an object. -/
def sortedArguments (field : FieldSelection) : List (Name × Literal) :=
  field.literalArguments.sortedByKey.map fun entry => (⟨entry.1, ⟨0, 0⟩⟩, entry.2)

theorem printFields_map (entries : List (String × Literal)) :
    Literal.printFields (entries.map fun entry => (⟨entry.1, ⟨0, 0⟩⟩, entry.2)) =
      entries.map fun entry => entry.1 ++ ": " ++ entry.2.print := by
  induction entries with
  | nil => rfl
  | cons entry rest ih =>
      simp only [List.map_cons, Literal.printFields]
      rw [ih]

/-- The text of the arguments lists the texts of the values by name. -/
theorem argumentsText_eq_listed (field : FieldSelection) : argumentsText field =
    "\x7b" ++ ", ".intercalate ((field.literalArguments.mapValues Literal.print).sortedByKey.map
      fun entry => entry.1 ++ ": " ++ entry.2) ++ "\x7d" := by
  rw [literalArguments, ← OrderedMap.ofPairs_map, List.map_map]
  rfl

/-- The text of the arguments is that of an object. -/
theorem argumentsText_eq (field : FieldSelection) :
    argumentsText field = (Literal.object field.sortedArguments ⟨0, 0⟩).print := by
  rw [argumentsText_eq_listed, OrderedMap.sortedByKey_mapValues, Literal.print, sortedArguments,
    printFields_map, OrderedMap.mapValues, List.map_map]
  rfl

/-- The arguments are as tokens spell them, and none of their numbers has the text of a name. -/
def isLegible (field : FieldSelection) : Bool :=
  field.arguments.all fun argument => argument.name.isWord && argument.value.isLegible

theorem isLegible_of_isReadable {field : FieldSelection} (readable : field.isReadable = true) :
    field.isLegible = true := by
  refine List.all_eq_true.mpr fun argument member => ?_
  have both := List.all_eq_true.mp readable argument member
  rw [Bool.and_eq_true] at both ⊢
  exact both.imp_right Literal.isLegible_of_isReadable

theorem legible_sortedArguments {field : FieldSelection} (legible : field.isLegible = true) :
    ∀ entry ∈ field.sortedArguments, entry.1.isWord = true ∧ entry.2.isLegible = true := by
  intro entry member
  rcases List.mem_map.mp member with ⟨⟨name, value⟩, sorted, rfl⟩
  rcases List.mem_map.mp (OrderedMap.mem_of_mem_ofPairs (List.mem_mergeSort.mp sorted)) with
    ⟨argument, argumentMem, same⟩
  cases same
  have both := List.all_eq_true.mp legible argument argumentMem
  rwa [Bool.and_eq_true] at both

/-- Fields whose arguments have one text have the same arguments apart from places. -/
theorem sortedArguments_of_argumentsText {left right : FieldSelection}
    (leftLegible : left.isLegible = true) (rightLegible : right.isLegible = true)
    (same : argumentsText left = argumentsText right) :
    Literal.fieldsUnplaced left.sortedArguments = Literal.fieldsUnplaced right.sortedArguments := by
  rw [argumentsText_eq, argumentsText_eq] at same
  have texts := congrArg String.toList same
  simp only [Literal.print, String.toList_append, List.append_assoc] at texts
  have contents := Literal.further_of_intercalate
    (Literal.opens_printFields (legible_sortedArguments leftLegible))
    (Literal.opens_printFields (legible_sortedArguments rightLegible))
    (List.append_cancel_left texts)
  exact (Literal.eq_of_further_fields _ _ (legible_sortedArguments leftLegible)
    (legible_sortedArguments rightLegible) contents).1

theorem fieldsUnplaced_sortedArguments (field : FieldSelection) :
    (Literal.fieldsUnplaced field.sortedArguments).map (fun entry => (entry.1.text, entry.2)) =
      (field.literalArguments.mapValues Literal.unplaced).sortedByKey := by
  rw [OrderedMap.sortedByKey_mapValues, Literal.fieldsUnplaced_eq, sortedArguments,
    OrderedMap.mapValues, List.map_map, List.map_map]
  rfl

theorem nodup_literalArguments (field : FieldSelection) :
    (OrderedMap.keys field.literalArguments).Nodup :=
  OrderedMap.nodup_keys_ofPairs _

/-- Fields whose arguments have one text have the same argument under each name, apart from
places. -/
theorem literalArguments_of_argumentsText {left right : FieldSelection}
    (leftLegible : left.isLegible = true) (rightLegible : right.isLegible = true)
    (same : argumentsText left = argumentsText right) (name : String) :
    (left.literalArguments.find? name).map Literal.unplaced =
      (right.literalArguments.find? name).map Literal.unplaced := by
  have sorted := congrArg (List.map fun entry : Name × Literal => (entry.1.text, entry.2))
    (sortedArguments_of_argumentsText leftLegible rightLegible same)
  rw [fieldsUnplaced_sortedArguments, fieldsUnplaced_sortedArguments] at sorted
  have lookup (field : FieldSelection) :
      (field.literalArguments.find? name).map Literal.unplaced =
        (field.literalArguments.mapValues Literal.unplaced).sortedByKey.find? name := by
    have distinct := field.nodup_literalArguments
    rw [← OrderedMap.keys_mapValues Literal.unplaced] at distinct
    rw [OrderedMap.find?_sortedByKey distinct, OrderedMap.find?_mapValues]
  rw [lookup, lookup, sorted]

/-- What a plan takes for an argument does not depend on places. -/
theorem find?_planArguments (field : FieldSelection) (name : String) :
    field.planArguments.find? name =
      ((field.literalArguments.find? name).map Literal.unplaced).map PlanValue.ofLiteral := by
  rw [planArguments_eq, OrderedMap.find?_mapValues, Option.map_map]
  exact congrArg (Option.map · _)
    (funext fun literal => (PlanValue.ofLiteral_unplaced literal).symm)

/-- Fields whose arguments have one text have the same arguments. -/
theorem planArguments_of_argumentsText {left right : FieldSelection}
    (leftReadable : left.isReadable = true) (rightReadable : right.isReadable = true)
    (same : argumentsText left = argumentsText right) (name : String) :
    left.planArguments.find? name = right.planArguments.find? name := by
  rw [find?_planArguments, find?_planArguments,
    literalArguments_of_argumentsText (isLegible_of_isReadable leftReadable)
      (isLegible_of_isReadable rightReadable) same name]

end FieldSelection

/-! ## Arguments of a document -/

namespace Document

variable {document : Document}

/-- The arguments of all fields, at any depth. -/
def fieldArguments (document : Document) : List Argument :=
  document.sets.flatMap fun selections => selections.items.flatMap fun selection =>
    match selection with
    | .field head _ => head.arguments
    | _ => []

/-- The names in the arguments of fields are as tokens spell them. -/
def HasTokenNames (document : Document) : Prop :=
  ∀ argument ∈ document.fieldArguments,
    argument.name.isWord = true ∧ argument.value.everywhere Literal.hasTokenNames = true

/-- The numbers in the arguments of fields are finite. -/
def HasFiniteNumbers (document : Document) : Prop :=
  ∀ argument ∈ document.fieldArguments, argument.value.everywhere Literal.isFiniteNumber = true

instance : Decidable document.HasFiniteNumbers :=
  inferInstanceAs (Decidable (∀ _ ∈ _, _))

/-- The items are those of a selection set in the document. -/
def Writes (document : Document) (items : List Selection) : Prop :=
  ∃ selections ∈ document.sets, selections.items = items

theorem writes_operation {operation : OperationDefinition}
    (member : operation ∈ document.operations) : document.Writes operation.selections.items := by
  refine ⟨_, mem_sets_iff.mpr ⟨_, ?_, operation.selections.mem_sets_self⟩, rfl⟩
  exact List.mem_append_left _ (List.mem_map_of_mem member)

theorem writes_fragment {name : String} {fragment : FragmentDefinition}
    (defined : document.fragment? name = some fragment) :
    document.Writes fragment.selections.items := by
  refine ⟨_, mem_sets_iff.mpr ⟨_, ?_, fragment.selections.mem_sets_self⟩, rfl⟩
  exact List.mem_append_right _ (List.mem_map_of_mem (fragment?_name defined).1)

theorem Writes.inner {items : List Selection} (writes : document.Writes items)
    {selection : Selection} (member : selection ∈ items) {inner : SelectionSet}
    (inside : inner ∈ selection.sets) : document.Writes inner.items := by
  rcases writes with ⟨⟨id, items, span⟩, setMem, rfl⟩
  rcases mem_sets_iff.mp setMem with ⟨outer, outerMem, within⟩
  refine ⟨inner, mem_sets_iff.mpr ⟨outer, outerMem, ?_⟩, rfl⟩
  apply (SelectionSet.sublist_sets_of_mem within).subset
  exact List.mem_cons_of_mem _ (Selection.listSets_subset_of_mem member inside)

theorem Writes.isReadable {items : List Selection} (writes : document.Writes items)
    (named : document.HasTokenNames) (finite : document.HasFiniteNumbers)
    {head : FieldSelection} {selections : Option SelectionSet}
    (member : .field head selections ∈ items) : head.isReadable = true := by
  rcases writes with ⟨outer, setMem, rfl⟩
  apply List.all_eq_true.mpr
  intro argument argumentMem
  have held : argument ∈ document.fieldArguments :=
    List.mem_flatMap.mpr ⟨outer, setMem, List.mem_flatMap.mpr ⟨_, member, argumentMem⟩⟩
  rw [Literal.isReadable, (named argument held).1, (named argument held).2, finite argument held]
  rfl

end Document

end GraphQL

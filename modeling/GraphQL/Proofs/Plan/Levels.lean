import GraphQL.Proofs.Plan.Arguments
import GraphQL.Proofs.Plan.Collection
import GraphQL.Proofs.Plan.Groups

/-!
# Levels of a plan

The children that a plan has for an object type stand for all appearances at their level, whatever
the variables are. The direct collection goes down the same levels, but only into the selections of
the fields that it has collected with some variables. At every level the included children are the
collected fields.

An appearance weighs as much as the fields nested in its selections and in all fragments that were
not entered on the way to it; its inner appearances weigh less. The nesting of the document is at
least what the appearances of an operation weigh, so no level is cut off.
-/

namespace GraphQL

/-! ## Weights -/

/-- How many fields can still be nested in one another below an appearance, itself included. -/
def Appearance.weight (document : Document) (appearance : Appearance) : Nat :=
  ((appearance.selections.map fun selections => selections.height + 1).getD 1)
    + document.remaining (fun fragment => fragment.selections.height) appearance.fragments

theorem Selection.height_le_heights {selection : Selection} :
    ∀ {items : List Selection}, selection ∈ items → selection.height ≤ Selection.heights items
  | first :: rest, member => by
      simp only [Selection.heights]
      rcases List.mem_cons.mp member with rfl | member
      · exact Nat.le_max_left _ _
      · exact (Selection.height_le_heights member).trans (Nat.le_max_right _ _)

theorem SelectionSet.height_eq (selections : SelectionSet) :
    selections.height = Selection.heights selections.items := by
  cases selections
  simp [SelectionSet.height]

theorem Appears.weight_le {schema : Schema} {document : Document} {object : SchemaType}
    {inherited : List PlanCondition} {entered : List String} {items : List Selection}
    {appearance : Appearance}
    (appears : Appears schema document object inherited entered items appearance) :
    appearance.weight document ≤ Selection.heights items
      + document.remaining (fun fragment => fragment.selections.height) entered := by
  induction appears with
  | @field inherited entered items head selections definition member defined =>
      have height := Selection.height_le_heights member
      unfold Appearance.weight
      apply Nat.add_le_add_right
      cases selections <;> simpa [Selection.height] using height
  | inlineFragment member applies inside ih =>
      have height := Selection.height_le_heights member
      simp only [Selection.height, SelectionSet.height_eq] at height
      omega
  | spread member defined fresh applies inside ih =>
      have taken := Document.add_remaining_append_le
        (fun fragment => fragment.selections.height) defined fresh
      rw [SelectionSet.height_eq] at taken
      omega

theorem Appearance.weight_pos (document : Document) (appearance : Appearance) :
    0 < appearance.weight document := by
  unfold Appearance.weight
  cases appearance.selections <;> simp

theorem Appears.weight_lt {schema : Schema} {document : Document} {object : SchemaType}
    {outer inner : Appearance} {selections : SelectionSet}
    (selects : outer.selections = some selections)
    (appears : Appears schema document object outer.conditions outer.fragments selections.items
      inner) : inner.weight document < outer.weight document := by
  have bound := appears.weight_le
  rw [← SelectionSet.height_eq] at bound
  unfold Appearance.weight at bound ⊢
  simp only [selects, Option.map_some, Option.getD_some]
  omega

/-- An appearance stands where a field is written. -/
theorem Appears.exists_written {schema : Schema} {document : Document} {object : SchemaType}
    {inherited : List PlanCondition} {entered : List String} {items : List Selection}
    {appearance : Appearance}
    (appears : Appears schema document object inherited entered items appearance)
    (writes : document.Writes items) :
    ∃ items, document.Writes items ∧ .field appearance.field appearance.selections ∈ items := by
  induction appears with
  | field member defined => exact ⟨_, writes, member⟩
  | @inlineFragment _ _ _ _ selections _ member applies inside ih =>
      exact ih (writes.inner member selections.mem_sets_self)
  | spread member defined fresh applies inside ih => exact ih (Document.writes_fragment defined)

theorem Document.height_le_nesting {document : Document} {operation : OperationDefinition}
    (member : operation ∈ document.operations) :
    operation.selections.height
        + document.remaining (fun fragment => fragment.selections.height) [] ≤
      document.nesting := by
  have others := document.remaining_le (fun fragment => fragment.selections.height) []
  have own : operation.selections.height ≤
      (document.operations.map fun operation => operation.selections.height).sum :=
    List.le_sum_of_mem (List.mem_map_of_mem member)
  unfold nesting
  rw [foldr_add_eq_sum, selectionSets, List.map_append, List.sum_append, List.map_map, List.map_map]
  exact Nat.add_le_add own others

theorem Document.height_fragment_le_nesting {document : Document} {fragment : FragmentDefinition}
    (member : fragment ∈ document.fragments) :
    fragment.selections.height
        + document.remaining (fun fragment => fragment.selections.height) [fragment.name.text] ≤
      document.nesting := by
  have taken := Document.add_remaining_le_of_mem (fun fragment => fragment.selections.height) member
    (List.nil_subset [fragment.name.text]) List.not_mem_nil List.mem_cons_self
  have all := document.remaining_le (fun fragment => fragment.selections.height) []
  have sets := Document.sum_fragments_le SelectionSet.height document
  exact taken.trans (all.trans sets)

namespace Plan

variable {sources : Sources}

theorem exists_node_of_grouped {depth : Nat} {object : SchemaType} {found : List Appearance}
    (light : ∀ appearance ∈ found, appearance.weight sources.document ≤ depth) {key : String}
    {first : Appearance} {others : List Appearance}
    (grouped : (key, first :: others) ∈ groupAppearances found) :
    ∃ inner, depth = inner + 1 ∧
      (key, sources.node (sources.nodesWithin inner) object key first others) ∈
        sources.nodesWithin depth object found := by
  have firstFound := (mem_of_grouped grouped List.mem_cons_self).1
  have positive := (first.weight_pos sources.document).trans_le (light first firstFound)
  cases depth with
  | zero => exact absurd positive (Nat.lt_irrefl _)
  | succ inner => exact ⟨inner, rfl, List.mem_filterMap.mpr ⟨_, grouped, rfl⟩⟩

/-! ## Levels -/

/-- What is collected for an object type at some level while an operation is planned. -/
inductive Found (sources : Sources) (definition : OperationDefinition) :
    SchemaType → List Appearance → Prop where
  | root {object : SchemaType} (starts : sources.schema.rootType? definition.kind = some object) :
      Found sources definition object
        (appearances sources.schema sources.document object [] [] definition.selections)
  | child {outer object : SchemaType} {found : List Appearance} {key : String}
      {first : Appearance} {others : List Appearance} (level : Found sources definition outer found)
      (grouped : (key, first :: others) ∈ groupAppearances found)
      (possible : object ∈ sources.childTypes first.definition) :
      Found sources definition object (sources.innerAppearances object (first :: others))

section

variable {definition : OperationDefinition}

theorem Found.isGroup (member : definition ∈ sources.document.operations) {object : SchemaType}
    {found : List Appearance} (level : Found sources definition object found) {key : String}
    {group : List Appearance} (grouped : (key, group) ∈ groupAppearances found) :
    IsGroup sources object group := by
  induction level generalizing key group with
  | root starts => exact .operation member starts grouped
  | child _ outerGrouped possible ih => exact .child (ih outerGrouped) possible grouped

/-- The fragments entered on the way to what is found lead to what its selections spread. -/
theorem Found.isBelow {object : SchemaType} {found : List Appearance}
    (level : Found sources definition object found) {appearance : Appearance}
    (member : appearance ∈ found) {selections : SelectionSet}
    (selects : appearance.selections = some selections) :
    IsBelow sources.document appearance.fragments selections.items := by
  induction level generalizing appearance selections with
  | root starts =>
      apply (mem_appearances_iff.mp member).isBelow _ selects
      intro name nameMem
      cases nameMem
  | child _ grouped possible ih =>
      rcases mem_innerAppearances_iff.mp member with ⟨parent, parentMem, outerSet, selectsOuter, appears⟩
      exact appears.isBelow (ih (mem_of_grouped grouped parentMem).1 selectsOuter) selects

end

/-- The children of a plan at one level, with the object type they are for and the selection sets
from which fields are collected at this level. -/
inductive Level (sources : Sources) (bindings : Variables) (definition : OperationDefinition) :
    SchemaType → (SelectionSet → Prop) → PlanChildren → Prop where
  | root {planned : PlanOperation} {object : SchemaType}
      (made : sources.operation? definition = some planned)
      (starts : sources.schema.rootType? definition.kind = some object) :
      Level sources bindings definition object (· = definition.selections) planned.children
  | child {outer object : SchemaType} {sets : SelectionSet → Prop}
      {children inner : PlanChildren} {key typeName : String} {node : PlanNode}
      (level : Level sources bindings definition outer sets children)
      (member : (key, node) ∈ children) (typed : (typeName, inner) ∈ node.typedChildren)
      (known : sources.schema.type? typeName = some object) :
      Level sources bindings definition object
        (fun selections => ∃ set, sets set ∧ ∃ head,
          Collects sources.schema sources.document bindings outer set.items head
              (some selections) ∧
            head.responseKey = key)
        inner

/-- The appearances that a level is made of are those that are collected there. -/
structure Comprises (sources : Sources) (bindings : Variables) (object : SchemaType)
    (sets : SelectionSet → Prop) (depth : Nat) (found : List Appearance) : Prop where
  groups : ∀ key group, (key, group) ∈ groupAppearances found → IsGroup sources object group
  light : ∀ appearance ∈ found, appearance.weight sources.document ≤ depth
  below : ∀ appearance ∈ found, ∀ selections, appearance.selections = some selections →
    IsBelow sources.document appearance.fragments selections.items
  written : ∀ appearance ∈ found, ∃ items, sources.document.Writes items ∧
    .field appearance.field appearance.selections ∈ items
  collects : ∀ head selections,
    (∃ appearance ∈ found, appearance.isIncluded bindings = true ∧ appearance.field = head ∧
        appearance.selections = selections) ↔
      ∃ set, sets set ∧
        Collects sources.schema sources.document bindings object set.items head selections

theorem comprises_operation (acyclic : ∀ name, ¬sources.document.Leads name name)
    {bindings : Variables} {definition : OperationDefinition}
    (member : definition ∈ sources.document.operations) {object : SchemaType}
    (starts : sources.schema.rootType? definition.kind = some object) :
    Comprises sources bindings object (· = definition.selections) sources.document.nesting
      (appearances sources.schema sources.document object [] [] definition.selections) where
  groups key group grouped := .operation member starts grouped
  light appearance found := by
    have weight := (mem_appearances_iff.mp found).weight_le
    rw [← SelectionSet.height_eq] at weight
    exact weight.trans (Document.height_le_nesting member)
  below appearance found selections selects := by
    apply (mem_appearances_iff.mp found).isBelow _ selects
    intro name nameMem
    cases nameMem
  written appearance found :=
    (mem_appearances_iff.mp found).exists_written (Document.writes_operation member)
  collects head selections := by
    constructor
    · rintro ⟨appearance, found, included, rfl, rfl⟩
      exact ⟨_, rfl, ((mem_appearances_iff.mp found).collects included).2⟩
    · rintro ⟨set, rfl, collects⟩
      have below : IsBelow sources.document [] definition.selections.items := by
        intro name nameMem
        cases nameMem
      rcases collects.exists_appears acyclic List.all_nil below with
        ⟨appearance, appears, included, same⟩
      exact ⟨appearance, mem_appearances_iff.mpr appears, included, same⟩

theorem Comprises.inner (acyclic : ∀ name, ¬sources.document.Leads name name)
    {bindings : Variables} {outer object : SchemaType} {sets : SelectionSet → Prop} {depth : Nat}
    {found : List Appearance} (comprises : Comprises sources bindings outer sets (depth + 1) found)
    {key : String} {first : Appearance} {others : List Appearance}
    (grouped : (key, first :: others) ∈ groupAppearances found)
    (possible : object ∈ sources.childTypes first.definition) :
    Comprises sources bindings object
      (fun selections => ∃ set, sets set ∧ ∃ head,
        Collects sources.schema sources.document bindings outer set.items head
            (some selections) ∧
          head.responseKey = key)
      depth (sources.innerAppearances object (first :: others)) where
  groups innerKey group innerGrouped :=
    .child (comprises.groups key _ grouped) possible innerGrouped
  light appearance inner := by
    rcases mem_innerAppearances_iff.mp inner with
      ⟨parent, parentMem, selections, selects, appears⟩
    have lighter := appears.weight_lt selects
    have parentLight := comprises.light parent (mem_of_grouped grouped parentMem).1
    omega
  below appearance inner selections selects := by
    rcases mem_innerAppearances_iff.mp inner with
      ⟨parent, parentMem, outerSet, outerSelects, appears⟩
    have parentFound := (mem_of_grouped grouped parentMem).1
    exact appears.isBelow (comprises.below parent parentFound outerSet outerSelects) selects
  written appearance inner := by
    rcases mem_innerAppearances_iff.mp inner with
      ⟨parent, parentMem, outerSet, outerSelects, appears⟩
    rcases comprises.written parent (mem_of_grouped grouped parentMem).1 with
      ⟨items, writes, member⟩
    rw [outerSelects] at member
    exact appears.exists_written (writes.inner member outerSet.mem_sets_self)
  collects head selections := by
    constructor
    · rintro ⟨appearance, inner, included, rfl, rfl⟩
      rcases mem_innerAppearances_iff.mp inner with
        ⟨parent, parentMem, outerSet, selects, appears⟩
      rcases mem_of_grouped grouped parentMem with ⟨parentFound, sameKey⟩
      rcases appears.collects included with ⟨parentIncluded, collects⟩
      rcases (comprises.collects parent.field (some outerSet)).mp
        ⟨parent, parentFound, parentIncluded, rfl, selects⟩ with ⟨set, inSets, parentCollects⟩
      exact ⟨outerSet, ⟨set, inSets, parent.field, parentCollects, sameKey⟩, collects⟩
    · rintro ⟨outerSet, ⟨set, inSets, outerHead, parentCollects, sameKey⟩, collects⟩
      rcases (comprises.collects outerHead (some outerSet)).mpr ⟨set, inSets, parentCollects⟩ with
        ⟨parent, parentFound, parentIncluded, rfl, selects⟩
      have parentMem : parent ∈ first :: others := by
        rw [(mem_groupAppearances_iff.mp grouped).1]
        exact List.mem_filter.mpr ⟨parentFound, decide_eq_true sameKey⟩
      rcases collects.exists_appears acyclic parentIncluded
        (comprises.below parent parentFound outerSet selects) with
        ⟨appearance, appears, included, same⟩
      exact ⟨appearance,
        mem_innerAppearances_iff.mpr ⟨parent, parentMem, outerSet, selects, appears⟩, included,
        same⟩

/-- A level is made of what is found there, the appearances that are collected. -/
theorem Level.exists_found (wellFormed : sources.schema.IsWellFormed)
    (acyclic : ∀ name, ¬sources.document.Leads name name) {bindings : Variables}
    {definition : OperationDefinition} (inDocument : definition ∈ sources.document.operations)
    {object : SchemaType} {sets : SelectionSet → Prop} {children : PlanChildren}
    (level : Level sources bindings definition object sets children) :
    ∃ depth found, Found sources definition object found ∧
      Comprises sources bindings object sets depth found ∧
      children = sources.nodesWithin depth object found := by
  induction level with
  | root made starts =>
      simp only [Sources.operation?, starts, Option.bind_eq_bind, Option.bind_some,
        Option.pure_def, Option.some.injEq] at made
      subst made
      exact ⟨_, _, .root starts, comprises_operation acyclic inDocument starts, rfl⟩
  | child level member typed known ih =>
      rcases ih with ⟨depth, found, isFound, comprises, rfl⟩
      rcases exists_group_of_typedChildren wellFormed member typed known with
        ⟨inner, first, others, rfl, grouped, possible, rfl⟩
      exact ⟨inner, _, .child isFound grouped possible, comprises.inner acyclic grouped possible,
        rfl⟩

/-- Every level is made of the appearances that are collected there. -/
theorem Level.exists_comprises (wellFormed : sources.schema.IsWellFormed)
    (acyclic : ∀ name, ¬sources.document.Leads name name) {bindings : Variables}
    {definition : OperationDefinition} (inDocument : definition ∈ sources.document.operations)
    {object : SchemaType} {sets : SelectionSet → Prop} {children : PlanChildren}
    (level : Level sources bindings definition object sets children) :
    ∃ depth found, Comprises sources bindings object sets depth found ∧
      children = sources.nodesWithin depth object found := by
  rcases level.exists_found wellFormed acyclic inDocument with ⟨depth, found, _, comprises, same⟩
  exact ⟨depth, found, comprises, same⟩

/-! ## Included children -/

theorem isIncluded_iff {children : SchemaType → List Appearance → PlanChildren}
    {object : SchemaType} {key : String} {first : Appearance} {others : List Appearance}
    {bindings : Variables} :
    (sources.node children object key first others).isIncluded bindings = true ↔
      ∃ appearance ∈ first :: others, appearance.isIncluded bindings = true := by
  unfold PlanNode.isIncluded Sources.node Appearance.isIncluded
  rw [List.any_map, List.any_eq_true]
  rfl

/-- A field that is collected has an included node, which stands for its place. -/
theorem Comprises.exists_node {bindings : Variables} {object : SchemaType}
    {sets : SelectionSet → Prop} {depth : Nat} {found : List Appearance}
    (comprises : Comprises sources bindings object sets depth found) {head : FieldSelection}
    {selections : Option SelectionSet} (collected : ∃ set, sets set ∧
      Collects sources.schema sources.document bindings object set.items head selections) :
    ∃ node, (head.responseKey, node) ∈ sources.nodesWithin depth object found ∧
      node.isIncluded bindings = true ∧ head.span ∈ node.spans := by
  rcases (comprises.collects head selections).mpr collected with
    ⟨appearance, isFound, included, rfl, rfl⟩
  rcases OrderedMap.exists_find?_grouped (fun appearance : Appearance =>
    appearance.field.responseKey) isFound with ⟨group, foundGroup, inGroup⟩
  have grouped := OrderedMap.mem_of_find? foundGroup
  cases group with
  | nil => cases inGroup
  | cons first others =>
      rcases exists_node_of_grouped comprises.light grouped with ⟨inner, rfl, member⟩
      exact ⟨_, member, isIncluded_iff.mpr ⟨appearance, inGroup, included⟩,
        List.mem_map_of_mem inGroup⟩

/-- The keys of the included nodes are those of the fields that are collected. -/
theorem Comprises.exists_included_iff {bindings : Variables} {object : SchemaType}
    {sets : SelectionSet → Prop} {depth : Nat} {found : List Appearance}
    (comprises : Comprises sources bindings object sets depth found) {key : String} :
    (∃ node, (key, node) ∈ sources.nodesWithin depth object found ∧
        node.isIncluded bindings = true) ↔
      ∃ head selections, (∃ set, sets set ∧
        Collects sources.schema sources.document bindings object set.items head selections) ∧
          head.responseKey = key := by
  constructor
  · rintro ⟨node, member, included⟩
    rcases mem_nodesWithin member with ⟨inner, first, others, _, grouped, rfl⟩
    rcases isIncluded_iff.mp included with ⟨appearance, inGroup, included⟩
    rcases mem_of_grouped grouped inGroup with ⟨isFound, sameKey⟩
    exact ⟨appearance.field, appearance.selections,
      (comprises.collects _ _).mp ⟨appearance, isFound, included, rfl, rfl⟩, sameKey⟩
  · rintro ⟨head, selections, collected, rfl⟩
    rcases comprises.exists_node collected with ⟨node, member, included, _⟩
    exact ⟨node, member, included⟩

/-- A node has the name and the arguments of all fields that are collected under its key. -/
theorem Comprises.node_agrees {bindings : Variables} {object : SchemaType}
    {sets : SelectionSet → Prop} {depth : Nat} {found : List Appearance}
    (comprises : Comprises sources bindings object sets depth found)
    (wellFormed : sources.schema.IsWellFormed) (conforming : sources.schema.IsConforming)
    (numbered : sources.document.HasDistinctNumbers) (named : sources.document.HasTokenNames)
    (finite : sources.document.HasFiniteNumbers)
    (valid : sources.document.IsValid sources.schema) {key : String} {node : PlanNode}
    (member : (key, node) ∈ sources.nodesWithin depth object found) {head : FieldSelection}
    {selections : Option SelectionSet} (collected : ∃ set, sets set ∧
      Collects sources.schema sources.document bindings object set.items head selections)
    (sameKey : head.responseKey = key) :
    node.name = head.name.text ∧ ∀ name,
      OrderedMap.find? node.arguments name = head.planArguments.find? name := by
  rcases mem_nodesWithin member with ⟨inner, first, others, _, grouped, rfl⟩
  rcases (comprises.collects head selections).mpr collected with
    ⟨appearance, isFound, _, rfl, rfl⟩
  have inGroup : appearance ∈ first :: others := by
    rw [(mem_groupAppearances_iff.mp grouped).1]
    exact List.mem_filter.mpr ⟨isFound, decide_eq_true sameKey⟩
  have mergeable := (comprises.groups key _ grouped).mergeable wellFormed conforming numbered valid
    first List.mem_cons_self appearance inGroup
  have readable : ∀ member ∈ first :: others, member.field.isReadable = true := by
    intro other otherMem
    rcases comprises.written other (mem_of_grouped grouped otherMem).1 with
      ⟨items, writes, written⟩
    exact writes.isReadable named finite written
  constructor
  · have sameDefinition := mergeable.definition_eq
    rcases mergeable with ⟨_, _, _, isOf, _⟩
    have sameName := wellFormed.field_name isOf.defined
    rw [← sameDefinition] at sameName
    exact sameName
  · exact FieldSelection.planArguments_of_argumentsText (readable first List.mem_cons_self)
      (readable appearance inGroup) mergeable.agree.2

end Plan

end GraphQL

import GraphQL.Proofs.OrderedMap
import GraphQL.Proofs.Walk

/-!
# Merging, checked plainly

The expansion of some selections on a type holds all appearances of fields in them: their own, those
in inline fragments of known types, and those in the fragments that they spread, directly or through
other fragments. Two appearances under one response key conflict if they can apply to one object and
select different fields or give different arguments, or if appearances in the expansions of their own
selections conflict. Nothing is remembered and nothing is left out here, and fragments may spread
themselves: both notions are the least ones closed under their rules.

The groupings of the search hold the part of an expansion that is reached without fragments.
-/

namespace GraphQL
namespace Merging

variable {context : RuleContext}

/-- The appearance of a field on a type. -/
def FieldRecord.on (schema : Schema) (owner : SchemaType) (head : FieldSelection)
    (selections : Option SelectionSet) : FieldRecord :=
  { field := head, selections, definition := schema.field? owner.name head.name.text
    parent := owner }

/-- The appearances of fields in some selections on a type. -/
inductive InExpansion (context : RuleContext) :
    SchemaType → List Selection → FieldRecord → Prop where
  | field {owner : SchemaType} {items : List Selection} {head : FieldSelection}
      {selections : Option SelectionSet} (member : .field head selections ∈ items) :
      InExpansion context owner items (.on context.schema owner head selections)
  | inlineFragment {owner inner : SchemaType} {items : List Selection} {head : InlineFragment}
      {selections : SelectionSet} {record : FieldRecord}
      (member : .inlineFragment head selections ∈ items)
      (known : Event.conditionType context.schema (some owner) head.typeCondition = some inner)
      (inside : InExpansion context inner selections.items record) :
      InExpansion context owner items record
  | spread {owner type : SchemaType} {items : List Selection} {head : FragmentSpread}
      {fragment : FragmentDefinition} {record : FieldRecord} (member : .spread head ∈ items)
      (defined : context.fragment? head.name.text = some fragment)
      (known : context.type? fragment.typeCondition.text = some type)
      (inside : InExpansion context type fragment.selections.items record) :
      InExpansion context owner items record

theorem InExpansion.mono {owner : SchemaType} {items more : List Selection} {record : FieldRecord}
    (inside : InExpansion context owner items record) (subset : items ⊆ more) :
    InExpansion context owner more record := by
  cases inside with
  | field member => exact .field (subset member)
  | inlineFragment member known inside => exact .inlineFragment (subset member) known inside
  | spread member defined known inside => exact .spread (subset member) defined known inside

/-- Two appearances of a response key cannot be merged. -/
inductive Conflict (context : RuleContext) : FieldRecord → FieldRecord → Prop where
  | direct {left right : FieldRecord} (together : onDistinctObjects left right = false)
      (differ : left.field.name.text ≠ right.field.name.text
        ∨ argumentsText left.field ≠ argumentsText right.field) :
      Conflict context left right
  | inside {left right leftInner rightInner : FieldRecord} {leftType rightType : SchemaType}
      {leftSet rightSet : SelectionSet} (together : onDistinctObjects left right = false)
      (leftReturns : left.returnType? context.schema = some leftType)
      (rightReturns : right.returnType? context.schema = some rightType)
      (leftSelects : left.selections = some leftSet)
      (rightSelects : right.selections = some rightSet)
      (leftInside : InExpansion context leftType leftSet.items leftInner)
      (rightInside : InExpansion context rightType rightSet.items rightInner)
      (sameKey : leftInner.field.responseKey = rightInner.field.responseKey)
      (conflict : Conflict context leftInner rightInner) :
      Conflict context left right

theorem onDistinctObjects_comm (left right : FieldRecord) :
    onDistinctObjects left right = onDistinctObjects right left := by
  unfold onDistinctObjects
  rw [bne_comm, Bool.and_right_comm]

theorem Conflict.symm {left right : FieldRecord} (conflict : Conflict context left right) :
    Conflict context right left := by
  induction conflict with
  | direct together differ =>
      rw [onDistinctObjects_comm] at together
      exact .direct together (differ.imp Ne.symm Ne.symm)
  | inside together leftReturns rightReturns leftSelects rightSelects leftInside rightInside sameKey
      _ ih =>
      rw [onDistinctObjects_comm] at together
      exact .inside together rightReturns leftReturns rightSelects leftSelects rightInside
        leftInside sameKey.symm ih

/-! ## What a walk meets in an expansion -/

/-- The walk over the document meets some selections on a type. -/
def Visits (context : RuleContext) (owner : SchemaType) (items : List Selection) : Prop :=
  ∀ event ∈ Event.ofSelections context.schema (some owner) items,
    event ∈ Event.ofDocument context.schema context.document

/-- The event of an appearance. -/
def FieldRecord.event (schema : Schema) (record : FieldRecord) : Event :=
  .field record.field record.selections (some record.parent) record.definition
    (Event.returnType schema record.definition)

/-- The walk meets an appearance. -/
def FieldRecord.IsMet (context : RuleContext) (record : FieldRecord) : Prop :=
  record.event context.schema ∈ Event.ofDocument context.schema context.document

theorem ofSelection_subset {schema : Schema} {type : Option SchemaType} {selection : Selection} :
    ∀ {items : List Selection}, selection ∈ items →
      Event.ofSelection schema type selection ⊆ Event.ofSelections schema type items
  | first :: rest, member => by
      simp only [Event.ofSelections]
      rcases List.mem_cons.mp member with rfl | member
      · exact List.subset_append_left _ _
      · exact List.subset_append_of_subset_right _ (ofSelection_subset member)

theorem ofDefinition_subset {schema : Schema} {document : Document} {definition : Definition}
    (member : definition ∈ document.definitions) :
    Event.ofDefinition schema definition ⊆ Event.ofDocument schema document := by
  intro event eventMem
  exact List.mem_append_left _ (List.mem_flatMap.mpr ⟨definition, member, eventMem⟩)

theorem openedSet?_ofDirectives {location : DirectiveLocation} {directives : List Directive}
    {event : Event} (member : event ∈ Event.ofDirectives location directives) :
    openedSet? event = none := by
  rcases List.mem_map.mp member with ⟨directive, _, rfl⟩
  rfl

mutual

theorem ofOpened_subset_ofSelection {schema : Schema} {event : Event} {owner : SchemaType}
    {opened : SelectionSet} (opens : openedSet? event = some (owner, opened)) :
    ∀ {selection : Selection} {type : Option SchemaType},
      event ∈ Event.ofSelection schema type selection →
        Event.ofSelectionSet schema (some owner) opened ⊆ Event.ofSelection schema type selection
  | .field head none, type, member => by
      simp only [Event.ofSelection, List.append_nil, List.mem_cons] at member
      rcases member with rfl | member
      · cases opens
      · rw [openedSet?_ofDirectives member] at opens
        cases opens
  | .field head (some selections), type, member => by
      simp only [Event.ofSelection, List.cons_append, List.mem_cons, List.mem_append] at member
      rcases member with rfl | member | member
      · cases returns : Event.returnType schema (Event.fieldDefinition schema type head) with
        | none => simp [openedSet?, returns] at opens
        | some returned =>
            simp only [openedSet?, returns, Option.some.injEq, Prod.mk.injEq] at opens
            rcases opens with ⟨rfl, rfl⟩
            simp only [Event.ofSelection, returns]
            exact List.subset_append_right _ _
      · rw [openedSet?_ofDirectives member] at opens
        cases opens
      · have inside := ofOpened_subset_ofSelectionSet opens member
        simp only [Event.ofSelection]
        exact List.subset_append_of_subset_right _ inside
  | .spread head, type, member => by
      simp only [Event.ofSelection, List.mem_cons] at member
      rcases member with rfl | member
      · cases opens
      · rw [openedSet?_ofDirectives member] at opens
        cases opens
  | .inlineFragment head selections, type, member => by
      simp only [Event.ofSelection, List.cons_append, List.mem_cons, List.mem_append] at member
      rcases member with rfl | member | member
      · cases opens
      · rw [openedSet?_ofDirectives member] at opens
        cases opens
      · have inside := ofOpened_subset_ofSelectionSet opens member
        simp only [Event.ofSelection]
        exact List.subset_append_of_subset_right _ inside

theorem ofOpened_subset_ofSelectionSet {schema : Schema} {event : Event} {owner : SchemaType}
    {opened : SelectionSet} (opens : openedSet? event = some (owner, opened)) :
    ∀ {selections : SelectionSet} {type : Option SchemaType},
      event ∈ Event.ofSelectionSet schema type selections →
        Event.ofSelectionSet schema (some owner) opened ⊆
          Event.ofSelectionSet schema type selections
  | ⟨_, items, _⟩, type, member => by
      simp only [Event.ofSelectionSet] at member
      have inside := ofOpened_subset_ofSelections opens member
      simpa only [Event.ofSelectionSet] using inside

/-- An event that opens a set is followed by the events of the set. -/
theorem ofOpened_subset_ofSelections {schema : Schema} {event : Event} {owner : SchemaType}
    {opened : SelectionSet} (opens : openedSet? event = some (owner, opened)) :
    ∀ {items : List Selection} {type : Option SchemaType},
      event ∈ Event.ofSelections schema type items →
        Event.ofSelectionSet schema (some owner) opened ⊆ Event.ofSelections schema type items
  | [], _, member => by simp [Event.ofSelections] at member
  | selection :: rest, type, member => by
      simp only [Event.ofSelections, List.mem_append] at member ⊢
      rcases member with member | member
      · exact List.subset_append_of_subset_left _ (ofOpened_subset_ofSelection opens member)
      · exact List.subset_append_of_subset_right _ (ofOpened_subset_ofSelections opens member)

end

theorem ofOpened_subset_ofDefinition {schema : Schema} {event : Event} {owner : SchemaType}
    {opened : SelectionSet} (opens : openedSet? event = some (owner, opened))
    {definition : Definition} (member : event ∈ Event.ofDefinition schema definition) :
    Event.ofSelectionSet schema (some owner) opened ⊆ Event.ofDefinition schema definition := by
  cases definition with
  | operation definition =>
      simp only [Event.ofDefinition, Event.ofOperation, List.cons_append, List.mem_cons,
        List.mem_append, List.mem_flatMap] at member ⊢
      rcases member with rfl | (member | ⟨declared, _, member⟩) | member
      · cases root : (schema.rootTypeName? definition.kind).bind schema.type? with
        | none => simp [openedSet?, root] at opens
        | some type =>
            simp only [openedSet?, root, Option.some.injEq, Prod.mk.injEq] at opens
            rcases opens with ⟨rfl, rfl⟩
            exact List.subset_cons_of_subset _ (List.subset_append_right _ _)
      · rw [openedSet?_ofDirectives member] at opens
        cases opens
      · rw [openedSet?_ofDirectives member] at opens
        cases opens
      · have inside := ofOpened_subset_ofSelectionSet opens member
        exact List.subset_cons_of_subset _ (List.subset_append_of_subset_right _ inside)
  | fragment definition =>
      simp only [Event.ofDefinition, Event.ofFragment, List.cons_append, List.mem_cons,
        List.mem_append] at member ⊢
      rcases member with rfl | member | member
      · cases known : schema.type? definition.typeCondition.text with
        | none => simp [openedSet?, known] at opens
        | some type =>
            simp only [openedSet?, known, Option.some.injEq, Prod.mk.injEq] at opens
            rcases opens with ⟨rfl, rfl⟩
            exact List.subset_cons_of_subset _ (List.subset_append_right _ _)
      · rw [openedSet?_ofDirectives member] at opens
        cases opens
      · have inside := ofOpened_subset_ofSelectionSet opens member
        exact List.subset_cons_of_subset _ (List.subset_append_of_subset_right _ inside)
  | schema definition => cases member
  | type definition => cases member
  | directive definition => cases member

namespace Opens

variable {owner : SchemaType} {selections : SelectionSet}

theorem visits (opens : Opens context owner selections) :
    Visits context owner selections.items := by
  rcases opens with ⟨event, member, opened⟩
  unfold Event.ofDocument at member
  rcases List.mem_append.mp member with member | member
  · rcases List.mem_flatMap.mp member with ⟨definition, definitionMem, inside⟩
    intro inner innerMem
    apply ofDefinition_subset definitionMem
    apply ofOpened_subset_ofDefinition opened inside
    rcases selections with ⟨id, items, span⟩
    exact innerMem
  · rw [List.mem_singleton] at member
    subst event
    cases opened

/-- The walk opens a fragment at the type of its condition. -/
theorem ofFragment {fragment : FragmentDefinition}
    (member : fragment ∈ context.document.fragments)
    (known : context.type? fragment.typeCondition.text = some owner) :
    Opens context owner fragment.selections := by
  rcases List.mem_filterMap.mp member with ⟨definition, definitionMem, isFragment⟩
  cases definition with
  | fragment definition =>
      simp only [Option.some.injEq] at isFragment
      subst isFragment
      refine ⟨.fragment definition (some owner), ofDefinition_subset definitionMem ?_, rfl⟩
      have knownType : context.schema.type? definition.typeCondition.text = some owner := known
      simp [Event.ofDefinition, Event.ofFragment, knownType]
  | operation definition => cases isFragment
  | schema definition => cases isFragment
  | type definition => cases isFragment
  | directive definition => cases isFragment

/-- The walk opens an operation at its root type. -/
theorem ofOperation {operation : OperationDefinition}
    (member : operation ∈ context.document.operations)
    (root : (context.schema.rootTypeName? operation.kind).bind context.schema.type? =
      some owner) :
    Opens context owner operation.selections := by
  rcases List.mem_filterMap.mp member with ⟨definition, definitionMem, isOperation⟩
  cases definition with
  | operation definition =>
      simp only [Option.some.injEq] at isOperation
      subst isOperation
      refine ⟨.operation definition (some owner), ofDefinition_subset definitionMem ?_, rfl⟩
      simp [Event.ofDefinition, Event.ofOperation, root]
  | fragment definition => cases isOperation
  | schema definition => cases isOperation
  | type definition => cases isOperation
  | directive definition => cases isOperation

/-- The walk opens the selections of a field that it meets at the type that the field returns. -/
theorem ofField {record : FieldRecord} (met : record.IsMet context)
    (returns : record.returnType? context.schema = some owner)
    (selects : record.selections = some selections) : Opens context owner selections := by
  refine ⟨_, met, ?_⟩
  have returnsType : Event.returnType context.schema record.definition = some owner := returns
  simp [FieldRecord.event, openedSet?, selects, returnsType]

end Opens

theorem fragment?_mem {name : String} {fragment : FragmentDefinition}
    (defined : context.fragment? name = some fragment) : fragment ∈ context.document.fragments :=
  List.mem_of_find?_eq_some defined

namespace Visits

variable {owner inner : SchemaType} {items : List Selection}

theorem isMet (visits : Visits context owner items) {head : FieldSelection}
    {selections : Option SelectionSet} (member : .field head selections ∈ items) :
    (FieldRecord.on context.schema owner head selections).IsMet context := by
  apply visits
  apply ofSelection_subset member
  cases selections <;> exact List.mem_cons_self

theorem inlineFragment (visits : Visits context owner items) {head : InlineFragment}
    {selections : SelectionSet} (member : .inlineFragment head selections ∈ items)
    (known : Event.conditionType context.schema (some owner) head.typeCondition = some inner) :
    Visits context inner selections.items := by
  intro event eventMem
  apply visits
  apply ofSelection_subset member
  simp only [Event.ofSelection, known]
  rcases selections with ⟨id, items, span⟩
  exact List.mem_append_right _ eventMem

end Visits

/-- Every appearance in the expansion of what the walk meets is met by it. -/
theorem InExpansion.isMet {owner : SchemaType} {items : List Selection} {record : FieldRecord}
    (inside : InExpansion context owner items record) (visits : Visits context owner items) :
    record.IsMet context := by
  induction inside with
  | field member => exact visits.isMet member
  | inlineFragment member known _ ih => exact ih (visits.inlineFragment member known)
  | spread _ defined known _ ih => exact ih (Opens.ofFragment (fragment?_mem defined) known).visits

end Merging
end GraphQL

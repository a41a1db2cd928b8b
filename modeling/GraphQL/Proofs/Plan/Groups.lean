import GraphQL.Plan.Building
import GraphQL.Proofs.Merging.Correctness
import GraphQL.Proofs.Plan.Appearance
import GraphQL.Proofs.Validation.Interleaving

/-!
# Merge groups

The appearances that a plan merges into one node form a group: those of one response key for one
object type, first at the root of an operation or fragment, then in the selections of all members of
a group. In a document that all rules accept the members of a group do not conflict, so they select
one field with the same arguments.
-/

namespace GraphQL

open Merging

/-! ## Records of appearances -/

/-- On a composite type every field that the walk meets is defined. -/
theorem Merging.FieldRecord.IsMet.defined {context : RuleContext}
    (valid : context.document.IsValid context.schema) {record : FieldRecord}
    (met : record.IsMet context) (composite : record.parent.isComposite = true) :
    ∃ definition, record.definition = some definition := by
  have silent := Rule.ofEvent_silent (valid .fieldsOnCorrectType (by decide)) met
  cases defined : record.definition with
  | some definition => exact ⟨definition, rfl⟩
  | none =>
      simp only [FieldRecord.event, defined] at silent
      unfold SchemaType.isComposite at composite
      split at silent <;> simp_all

namespace Appearance.IsOf

variable {context : RuleContext} {object : SchemaType} {appearance : Appearance}
  {record : FieldRecord}

theorem parent_isComposite (isOf : appearance.IsOf context object record)
    (objectKnown : context.schema.type? object.name = some object)
    (isObject : object.isObject = true) : record.parent.isComposite = true :=
  isOf.covers.isComposite objectKnown isObject isOf.parentKnown

/-- Types that cover one object type do not exclude one another. -/
theorem together (isOf : appearance.IsOf context object record) {other : Appearance}
    {otherRecord : FieldRecord} (otherIsOf : other.IsOf context object otherRecord) :
    onDistinctObjects record otherRecord = false := by
  by_contra apart
  simp only [onDistinctObjects, Bool.not_eq_false, Bool.and_eq_true, bne_iff_ne] at apart
  rcases apart with ⟨⟨distinct, isObject⟩, otherIsObject⟩
  rcases isOf.covers with same | ⟨isAbstract, _⟩
  · rcases otherIsOf.covers with otherSame | ⟨isAbstract, _⟩
    · exact distinct (same.trans otherSame.symm)
    · rw [SchemaType.isAbstract_of_isObject otherIsObject] at isAbstract
      cases isAbstract
  · rw [SchemaType.isAbstract_of_isObject isObject] at isAbstract
    cases isAbstract

/-- What a field returns where it is stated covers what it returns on the object type. -/
theorem returnType_covers (isOf : appearance.IsOf context object record)
    (wellFormed : context.schema.IsWellFormed) (conforming : context.schema.IsConforming)
    (valid : context.document.IsValid context.schema) (met : record.IsMet context)
    (objectKnown : context.schema.type? object.name = some object)
    (isObject : object.isObject = true) {childName : String} {child : SchemaType}
    (possible : childName ∈ context.schema.possibleTypes appearance.definition.type.innermost)
    (childKnown : context.schema.type? childName = some child) :
    ∃ type, record.returnType? context.schema = some type ∧
      context.schema.type? type.name = some type ∧ type.Covers context.schema child := by
  rcases met.defined valid (isOf.parent_isComposite objectKnown isObject) with
    ⟨definition, defined⟩
  have stated := isOf.stated.symm.trans defined
  rcases conforming.field_of_covers wellFormed isOf.parentKnown objectKnown isObject isOf.covers
    stated with ⟨own, ownDefined, narrower⟩
  cases ownDefined.symm.trans isOf.defined
  rcases wellFormed.returns_type stated with ⟨type, found⟩
  refine ⟨type, ?_, wellFormed.type?_name found, ?_⟩
  · simp [FieldRecord.returnType?, defined, found]
  · exact conforming.covers_of_possible wellFormed found (narrower possible) childKnown

end Appearance.IsOf

namespace Plan

/-- The appearances that are merged into one node for an object type. -/
inductive IsGroup (sources : Sources) : SchemaType → List Appearance → Prop where
  | operation {definition : OperationDefinition} {root : SchemaType} {key : String}
      {group : List Appearance} (member : definition ∈ sources.document.operations)
      (starts : sources.schema.rootType? definition.kind = some root)
      (grouped : (key, group) ∈ groupAppearances
        (appearances sources.schema sources.document root [] [] definition.selections)) :
      IsGroup sources root group
  | fragment {definition : FragmentDefinition} {condition object : SchemaType} {key : String}
      {group : List Appearance} (member : definition ∈ sources.document.fragments)
      (known : sources.schema.type? definition.typeCondition.text = some condition)
      (possible : object ∈
        (sources.schema.possibleTypes condition.name).filterMap sources.schema.type?)
      (grouped : (key, group) ∈ groupAppearances
        (appearances sources.schema sources.document object [] [definition.name.text]
          definition.selections)) :
      IsGroup sources object group
  | child {outer object : SchemaType} {first : Appearance} {others group : List Appearance}
      {key : String} (parent : IsGroup sources outer (first :: others))
      (possible : object ∈ sources.childTypes first.definition)
      (grouped : (key, group) ∈
        groupAppearances (sources.innerAppearances object (first :: others))) :
      IsGroup sources object group

theorem mem_groupAppearances_iff {found : List Appearance} {key : String}
    {group : List Appearance} :
    (key, group) ∈ groupAppearances found ↔
      group = found.filter (·.field.responseKey = key) ∧ group ≠ [] :=
  OrderedMap.mem_grouped_iff fun appearance : Appearance => appearance.field.responseKey

theorem mem_of_grouped {found : List Appearance} {key : String}
    {group : List Appearance} (grouped : (key, group) ∈ groupAppearances found)
    {appearance : Appearance} (member : appearance ∈ group) :
    appearance ∈ found ∧ appearance.field.responseKey = key := by
  rcases mem_groupAppearances_iff.mp grouped with ⟨rfl, _⟩
  rcases List.mem_filter.mp member with ⟨foundMem, sameKey⟩
  exact ⟨foundMem, of_decide_eq_true sameKey⟩

theorem mem_innerAppearances_iff {sources : Sources} {object : SchemaType}
    {outer : List Appearance} {appearance : Appearance} :
    appearance ∈ sources.innerAppearances object outer ↔
      ∃ parent ∈ outer, ∃ selections, parent.selections = some selections ∧
        Appears sources.schema sources.document object parent.conditions parent.fragments
          selections.items appearance := by
  unfold Sources.innerAppearances
  rw [List.mem_flatMap]
  constructor
  · rintro ⟨parent, parentMem, inner⟩
    split at inner
    · cases inner
    · rename_i selections selects
      exact ⟨parent, parentMem, selections, selects, mem_appearances_iff.mp inner⟩
  · rintro ⟨parent, parentMem, selections, selects, appears⟩
    refine ⟨parent, parentMem, ?_⟩
    simp only [selects]
    exact mem_appearances_iff.mpr appears

/-! ## Members of a group -/

/-- The appearances stand for records that the walk meets and that do not conflict. -/
def Mergeable (context : RuleContext) (object : SchemaType) (first second : Appearance) : Prop :=
  ∃ left right, first.IsOf context object left ∧ second.IsOf context object right ∧
    left.IsMet context ∧ right.IsMet context ∧ ¬Conflict context left right

theorem Mergeable.agree {context : RuleContext} {object : SchemaType} {first second : Appearance}
    (mergeable : Mergeable context object first second) :
    first.field.name.text = second.field.name.text ∧
      argumentsText first.field = argumentsText second.field := by
  rcases mergeable with ⟨left, right, leftOf, rightOf, _, _, apart⟩
  rw [← leftOf.field, ← rightOf.field]
  constructor
  · by_contra differ
    exact apart (.direct (leftOf.together rightOf) (.inl differ))
  · by_contra differ
    exact apart (.direct (leftOf.together rightOf) (.inr differ))

theorem Mergeable.definition_eq {context : RuleContext} {object : SchemaType}
    {first second : Appearance} (mergeable : Mergeable context object first second) :
    first.definition = second.definition := by
  have sameName := mergeable.agree.1
  rcases mergeable with ⟨left, right, leftOf, rightOf, _, _, _⟩
  have defined := leftOf.defined
  rw [sameName, rightOf.defined, Option.some.injEq] at defined
  exact defined.symm

theorem not_conflict_of_isValid {context : RuleContext}
    (numbered : context.document.HasDistinctNumbers)
    (valid : context.document.IsValid context.schema) : ¬HasConflict context := by
  rw [← findings_ne_nil_iff numbered, not_not]
  exact valid .fieldsWillMerge (by decide)

/-- Two appearances in an opened set can be merged in an accepted document. -/
theorem mergeable_of_opens {context : RuleContext} (wellFormed : context.schema.IsWellFormed)
    (numbered : context.document.HasDistinctNumbers)
    (valid : context.document.IsValid context.schema) {object type : SchemaType}
    {selections : SelectionSet} (opens : Opens context type selections)
    (known : context.schema.type? type.name = some type)
    (covers : type.Covers context.schema object) {first second : Appearance}
    {inherited : List PlanCondition} {entered : List String}
    (firstAppears : Appears context.schema context.document object inherited entered
      selections.items first)
    (secondAppears : Appears context.schema context.document object inherited entered
      selections.items second)
    (sameKey : first.field.responseKey = second.field.responseKey) :
    Mergeable context object first second := by
  rcases firstAppears.exists_record wellFormed known covers with ⟨left, leftOf, leftIn⟩
  rcases secondAppears.exists_record wellFormed known covers with ⟨right, rightOf, rightIn⟩
  refine ⟨left, right, leftOf, rightOf, leftIn.isMet opens.visits, rightIn.isMet opens.visits, ?_⟩
  intro conflict
  apply not_conflict_of_isValid numbered valid
  refine ⟨type, selections, opens, left, right, leftIn, rightIn, ?_, conflict⟩
  rwa [leftOf.field, rightOf.field]

/-- Appearances in the selections of two that can be merged can be merged. -/
theorem Mergeable.inner {context : RuleContext} (wellFormed : context.schema.IsWellFormed)
    (conforming : context.schema.IsConforming)
    (valid : context.document.IsValid context.schema) {object : SchemaType}
    (objectKnown : context.schema.type? object.name = some object)
    (isObject : object.isObject = true) {first second : Appearance}
    (mergeable : Mergeable context object first second) {childName : String} {child : SchemaType}
    (possible : childName ∈ context.schema.possibleTypes first.definition.type.innermost)
    (childKnown : context.schema.type? childName = some child)
    {firstSet secondSet : SelectionSet} (firstSelects : first.selections = some firstSet)
    (secondSelects : second.selections = some secondSet) {firstInner secondInner : Appearance}
    {inherited otherInherited : List PlanCondition} {entered otherEntered : List String}
    (firstAppears : Appears context.schema context.document child inherited entered firstSet.items
      firstInner)
    (secondAppears : Appears context.schema context.document child otherInherited otherEntered
      secondSet.items secondInner)
    (sameKey : firstInner.field.responseKey = secondInner.field.responseKey) :
    Mergeable context child firstInner secondInner := by
  have sameDefinition := mergeable.definition_eq
  rcases mergeable with ⟨left, right, leftOf, rightOf, leftMet, rightMet, apart⟩
  rcases leftOf.returnType_covers wellFormed conforming valid leftMet objectKnown isObject possible
    childKnown with ⟨leftType, leftReturns, leftKnown, leftCovers⟩
  rw [sameDefinition] at possible
  rcases rightOf.returnType_covers wellFormed conforming valid rightMet objectKnown isObject
    possible childKnown with ⟨rightType, rightReturns, rightKnown, rightCovers⟩
  have leftSelects := leftOf.selections.trans firstSelects
  have rightSelects := rightOf.selections.trans secondSelects
  rcases firstAppears.exists_record wellFormed leftKnown leftCovers with
    ⟨leftInner, leftInnerOf, leftIn⟩
  rcases secondAppears.exists_record wellFormed rightKnown rightCovers with
    ⟨rightInner, rightInnerOf, rightIn⟩
  have leftOpens := leftMet.opens leftReturns firstSet leftSelects
  have rightOpens := rightMet.opens rightReturns secondSet rightSelects
  refine ⟨leftInner, rightInner, leftInnerOf, rightInnerOf, leftIn.isMet leftOpens.visits,
    rightIn.isMet rightOpens.visits, ?_⟩
  intro conflict
  apply apart
  refine .inside (leftOf.together rightOf) leftReturns rightReturns leftSelects rightSelects leftIn
    rightIn ?_ conflict
  rwa [leftInnerOf.field, rightInnerOf.field]

/-! ## All groups -/

variable {sources : Sources}

theorem exists_possible_of_mem_childTypes (wellFormed : sources.schema.IsWellFormed)
    {definition : OutputField} {child : SchemaType}
    (member : child ∈ sources.childTypes definition) :
    ∃ name ∈ sources.schema.possibleTypes definition.type.innermost,
      sources.schema.type? name = some child := by
  unfold Sources.childTypes at member
  split at member
  · cases member
  · rename_i type found
    split at member
    · rcases List.mem_filterMap.mp member with ⟨name, possible, known⟩
      rw [wellFormed.name_eq found] at possible
      exact ⟨name, possible, known⟩
    · cases member

theorem rootType?_eq_some {schema : Schema} {kind : OperationKind} {root : SchemaType}
    (starts : schema.rootType? kind = some root) :
    (schema.rootTypeName? kind).bind schema.type? = some root ∧ root.isObject = true := by
  unfold Schema.rootType? at starts
  split at starts
  · rename_i type found
    split at starts
    · rename_i isObject
      simp only [Option.some.injEq] at starts
      subst starts
      exact ⟨found, isObject⟩
    · cases starts
  · cases starts

/-- Groups are for object types of the schema. -/
theorem IsGroup.object_known (wellFormed : sources.schema.IsWellFormed) {object : SchemaType}
    {group : List Appearance} (isGroup : IsGroup sources object group) :
    sources.schema.type? object.name = some object ∧ object.isObject = true := by
  cases isGroup with
  | operation member starts grouped =>
      rcases rootType?_eq_some starts with ⟨found, isObject⟩
      rcases Option.bind_eq_some_iff.mp found with ⟨name, _, known⟩
      exact ⟨wellFormed.type?_name known, isObject⟩
  | fragment member known possible grouped =>
      rcases List.mem_filterMap.mp possible with ⟨name, possible, objectKnown⟩
      exact ⟨wellFormed.type?_name objectKnown,
        wellFormed.isObject_of_possible possible objectKnown⟩
  | child parent possible grouped =>
      rcases exists_possible_of_mem_childTypes wellFormed possible with
        ⟨name, possible, objectKnown⟩
      exact ⟨wellFormed.type?_name objectKnown,
        wellFormed.isObject_of_possible possible objectKnown⟩

/-- Any two members of a group can be merged. -/
theorem IsGroup.mergeable (wellFormed : sources.schema.IsWellFormed)
    (conforming : sources.schema.IsConforming) (numbered : sources.document.HasDistinctNumbers)
    (valid : sources.document.IsValid sources.schema) {object : SchemaType}
    {group : List Appearance} (isGroup : IsGroup sources object group) :
    ∀ first ∈ group, ∀ second ∈ group,
      Mergeable ⟨sources.schema, sources.document⟩ object first second := by
  induction isGroup with
  | @operation definition root key group member starts grouped =>
      intro first firstMem second secondMem
      rcases rootType?_eq_some starts with ⟨found, _⟩
      rcases Option.bind_eq_some_iff.mp found with ⟨name, _, known⟩
      rcases mem_of_grouped grouped firstMem with ⟨firstFound, firstKey⟩
      rcases mem_of_grouped grouped secondMem with ⟨secondFound, secondKey⟩
      exact mergeable_of_opens wellFormed numbered valid (.ofOperation member found)
        (wellFormed.type?_name known) (.inl rfl) (mem_appearances_iff.mp firstFound)
        (mem_appearances_iff.mp secondFound) (firstKey.trans secondKey.symm)
  | @fragment definition condition object key group member known possible grouped =>
      intro first firstMem second secondMem
      rcases List.mem_filterMap.mp possible with ⟨name, possible, objectKnown⟩
      rcases mem_of_grouped grouped firstMem with ⟨firstFound, firstKey⟩
      rcases mem_of_grouped grouped secondMem with ⟨secondFound, secondKey⟩
      have conditionKnown := wellFormed.type?_name known
      have found : RuleContext.type? ⟨sources.schema, sources.document⟩
          definition.typeCondition.text = some condition := known
      exact mergeable_of_opens wellFormed numbered valid (.ofFragment member found) conditionKnown
        (conforming.covers_of_possible wellFormed conditionKnown possible objectKnown)
        (mem_appearances_iff.mp firstFound) (mem_appearances_iff.mp secondFound)
        (firstKey.trans secondKey.symm)
  | @child outer object head others group key parent possible grouped ih =>
      intro first firstMem second secondMem
      rcases parent.object_known wellFormed with ⟨outerKnown, outerIsObject⟩
      rcases exists_possible_of_mem_childTypes wellFormed possible with
        ⟨name, possible, objectKnown⟩
      rcases mem_of_grouped grouped firstMem with ⟨firstFound, firstKey⟩
      rcases mem_of_grouped grouped secondMem with ⟨secondFound, secondKey⟩
      rcases mem_innerAppearances_iff.mp firstFound with ⟨left, leftMem, leftSet, leftSelects, firstIn⟩
      rcases mem_innerAppearances_iff.mp secondFound with
        ⟨right, rightMem, rightSet, rightSelects, secondIn⟩
      have mergeable := ih left leftMem right rightMem
      rw [(ih head List.mem_cons_self left leftMem).definition_eq] at possible
      exact mergeable.inner wellFormed conforming valid outerKnown outerIsObject possible
        objectKnown leftSelects rightSelects firstIn secondIn (firstKey.trans secondKey.symm)

/-! ## The nodes of a plan -/

theorem mem_nodesWithin {depth : Nat} {object : SchemaType} {found : List Appearance}
    {key : String} {node : PlanNode} (member : (key, node) ∈ sources.nodesWithin depth object found) :
    ∃ inner first others, depth = inner + 1 ∧ (key, first :: others) ∈ groupAppearances found ∧
      node = sources.node (sources.nodesWithin inner) object key first others := by
  cases depth with
  | zero => cases member
  | succ inner =>
      rcases List.mem_filterMap.mp member with ⟨⟨groupKey, group⟩, grouped, made⟩
      cases group with
      | nil => cases made
      | cons first others =>
          simp only [Option.some.injEq, Prod.mk.injEq] at made
          rcases made with ⟨rfl, rfl⟩
          exact ⟨inner, first, others, rfl, grouped, rfl⟩

/-- The children of a node on a type are built from the selections of its group. -/
theorem mem_typedChildren_node {build : SchemaType → List Appearance → PlanChildren}
    {object : SchemaType} {key : String} {first : Appearance} {others : List Appearance}
    {typed : String × PlanChildren}
    (member : typed ∈ (sources.node build object key first others).typedChildren) :
    ∃ type ∈ sources.childTypes first.definition,
      typed = (type.name, build type (sources.innerAppearances type (first :: others))) := by
  rcases List.mem_map.mp (OrderedMap.mem_of_mem_ofPairs member) with ⟨type, possible, rfl⟩
  exact ⟨type, possible, rfl⟩

/-- The children of a planned node on an object type are planned from its group. -/
theorem exists_group_of_typedChildren (wellFormed : sources.schema.IsWellFormed) {depth : Nat}
    {outer object : SchemaType} {found : List Appearance} {key typeName : String} {node : PlanNode}
    {children : PlanChildren} (member : (key, node) ∈ sources.nodesWithin depth outer found)
    (typed : (typeName, children) ∈ node.typedChildren)
    (known : sources.schema.type? typeName = some object) :
    ∃ inner first others, depth = inner + 1 ∧ (key, first :: others) ∈ groupAppearances found ∧
      object ∈ sources.childTypes first.definition ∧
      children = sources.nodesWithin inner object
        (sources.innerAppearances object (first :: others)) := by
  rcases mem_nodesWithin member with ⟨inner, first, others, rfl, grouped, rfl⟩
  rcases mem_typedChildren_node typed with ⟨type, possible, same⟩
  cases same
  rcases exists_possible_of_mem_childTypes wellFormed possible with ⟨name, _, typeKnown⟩
  cases known.symm.trans (wellFormed.type?_name typeKnown)
  exact ⟨inner, first, others, rfl, grouped, possible, rfl⟩

/-- A definition leaves a plan as it is or adds the plan of one operation or of one fragment. -/
theorem addDefinition_cases (plan : Plan) (definition : Definition) :
    sources.addDefinition plan definition = plan ∨
      (∃ added operation, definition = .operation added ∧
        sources.operation? added = some operation ∧ sources.addDefinition plan definition =
          { plan with
            operations := plan.operations.insertIfNew (operation.name.getD "") operation }) ∨
      ∃ added fragment, definition = .fragment added ∧
        sources.fragment? added = some fragment ∧ sources.addDefinition plan definition =
          { plan with fragments := plan.fragments.insertIfNew fragment.name fragment } := by
  cases definition with
  | operation added =>
      cases made : sources.operation? added with
      | none => exact .inl (by simp only [Sources.addDefinition, made])
      | some operation =>
          exact .inr (.inl ⟨added, operation, rfl, made, by simp only [Sources.addDefinition, made]⟩)
  | fragment added =>
      cases made : sources.fragment? added with
      | none => exact .inl (by simp only [Sources.addDefinition, made])
      | some fragment =>
          exact .inr (.inr ⟨added, fragment, rfl, made, by simp only [Sources.addDefinition, made]⟩)
  | schema definition => exact .inl rfl
  | type definition => exact .inl rfl
  | directive definition => exact .inl rfl

/-- What holds of the empty plan, and still does whenever the plan of an operation or of a fragment
is added, holds of the plan of a document. -/
theorem ofDocument_induction (holds : Plan → Prop) {schema : Schema} {document : Document}
    {lines? : Option LineIndex} (empty : holds {})
    (addsOperation : ∀ plan added operation, added ∈ document.operations →
      Sources.operation? { schema, document, lines? } added = some operation → holds plan →
      holds { plan with
        operations := plan.operations.insertIfNew (operation.name.getD "") operation })
    (addsFragment : ∀ plan added fragment, added ∈ document.fragments →
      Sources.fragment? { schema, document, lines? } added = some fragment → holds plan →
      holds { plan with fragments := plan.fragments.insertIfNew fragment.name fragment }) :
    holds (ofDocument schema document lines?) := by
  have general (definitions : List Definition) (subset : definitions ⊆ document.definitions)
      (plan : Plan) (start : holds plan) :
      holds (definitions.foldl (Sources.addDefinition { schema, document, lines? }) plan) := by
    induction definitions generalizing plan with
    | nil => exact start
    | cons definition rest ih =>
        rcases List.cons_subset.mp subset with ⟨member, subset⟩
        refine ih subset _ ?_
        rcases addDefinition_cases plan definition with same | ⟨added, operation, rfl, made, same⟩ |
          ⟨added, fragment, rfl, made, same⟩ <;> rw [same]
        · exact start
        · exact addsOperation plan added operation (List.mem_filterMap.mpr ⟨_, member, rfl⟩) made
            start
        · exact addsFragment plan added fragment (List.mem_filterMap.mpr ⟨_, member, rfl⟩) made start
  exact general _ (List.Subset.refl _) _ empty

/-- The operations of a plan are those of the document. -/
theorem exists_operation_of_mem_ofDocument {schema : Schema} {document : Document}
    {lines? : Option LineIndex} {entry : String × PlanOperation}
    (member : entry ∈ (ofDocument schema document lines?).operations) :
    ∃ definition ∈ document.operations,
      Sources.operation? { schema, document, lines? } definition = some entry.2 := by
  refine ofDocument_induction (fun plan => ∀ entry ∈ plan.operations,
    ∃ definition ∈ document.operations,
      Sources.operation? { schema, document, lines? } definition = some entry.2)
    (by simp) ?_ (fun _ _ _ _ _ known => known) entry member
  intro plan added operation inDocument made known entry member
  rcases OrderedMap.mem_insertIfNew member with rfl | member
  · exact ⟨added, inDocument, made⟩
  · exact known entry member

/-- The fragments of a plan are those of the document. -/
theorem exists_fragment_of_mem_ofDocument {schema : Schema} {document : Document}
    {lines? : Option LineIndex} {entry : String × PlanFragment}
    (member : entry ∈ (ofDocument schema document lines?).fragments) :
    ∃ definition ∈ document.fragments,
      Sources.fragment? { schema, document, lines? } definition = some entry.2 := by
  refine ofDocument_induction (fun plan => ∀ entry ∈ plan.fragments,
    ∃ definition ∈ document.fragments,
      Sources.fragment? { schema, document, lines? } definition = some entry.2)
    (by simp) (fun _ _ _ _ _ known => known) ?_ entry member
  intro plan added fragment inDocument made known entry member
  rcases OrderedMap.mem_insertIfNew member with rfl | member
  · exact ⟨added, inDocument, made⟩
  · exact known entry member

/-- In a document that a validation with all rules accepts, the members of a merge group select one
field, with one definition and the same arguments. -/
theorem group_agrees {source : String} {schema : Schema} {document : Document}
    {limits : ValidationLimits} {lines? : Option LineIndex} {result : ValidationResult}
    (accepted : Schema.ofSource source = .ok schema) (conforming : schema.IsConforming)
    (numbered : document.HasDistinctNumbers)
    (validated : Validator.validate { schema, rules := RuleKind.all, limits } document lines? =
      .ok result)
    (valid : result.findings = []) {object : SchemaType} {group : List Appearance}
    (isGroup : IsGroup { schema, document, lines? } object group) {first second : Appearance}
    (firstMem : first ∈ group) (secondMem : second ∈ group) :
    first.field.name.text = second.field.name.text ∧ first.definition = second.definition ∧
      argumentsText first.field = argumentsText second.field := by
  have wellFormed := Schema.ofSource_isWellFormed accepted
  have mergeable := isGroup.mergeable wellFormed conforming numbered
    (Validator.isValid_of_validate rfl validated valid) first firstMem second secondMem
  exact ⟨mergeable.agree.1, mergeable.definition_eq, mergeable.agree.2⟩

namespace SpreadTwice

def source : String :=
  "interface A { a: A } type B implements A { a: B } type Query { a: A }"

def schema : Schema :=
  (Schema.ofSource source).toOption.getD {}

/-- The field of the operation is selected again in the fragment that it spreads. -/
def document : Document :=
  ((Document.parse
      "{ a { __typename } ...F } fragment F on Query { a { a { __typename } } }").toOption.map
    (·.document)).getD ⟨[], ⟨0, 0⟩⟩

theorem evaluation :
    (Schema.ofSource source).toBool = true ∧ schema.IsConforming ∧ document.HasDistinctNumbers ∧
      ((Validator.validate { schema } document).toOption.any
        fun result => result.findings.isEmpty) = true ∧
      document.operations.any (fun definition =>
        (schema.rootType? definition.kind).any fun root =>
          (groupAppearances (appearances schema document root [] [] definition.selections)).any
            fun entry => entry.2.length == 2) = true := by
  decide +kernel

theorem exists_group :
    ∃ object first second, IsGroup { schema, document, lines? := none } object [first, second] := by
  rcases List.any_eq_true.mp evaluation.2.2.2.2 with ⟨definition, definitionMem, present⟩
  rcases (Option.any_eq_true _ _).mp present with ⟨root, starts, present⟩
  rcases List.any_eq_true.mp present with ⟨⟨key, group⟩, grouped, two⟩
  rcases List.length_eq_two.mp (beq_iff_eq.mp two) with ⟨first, second, rfl⟩
  exact ⟨root, first, second, .operation definitionMem starts grouped⟩

theorem merged_across_spread :
    ∃ object first second, IsGroup { schema, document, lines? := none } object [first, second] ∧
      first.field.name.text = second.field.name.text ∧ first.definition = second.definition ∧
      argumentsText first.field = argumentsText second.field := by
  rcases exists_ok_of_any evaluation.2.2.2.1 with ⟨result, validated, silent⟩
  rcases exists_group with ⟨object, first, second, isGroup⟩
  exact ⟨object, first, second, isGroup,
    group_agrees (eq_ok_of_toBool evaluation.1 {}) evaluation.2.1 evaluation.2.2.1 validated
      (List.isEmpty_iff.mp silent) isGroup
      List.mem_cons_self (List.mem_cons_of_mem _ List.mem_cons_self)⟩

end SpreadTwice

end Plan

end GraphQL

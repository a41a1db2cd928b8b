import GraphQL.Proofs.Plan.Groups

/-!
# Typed plans

A plan is built against a schema, and every node in it fits the schema, whatever the document says
and whichever rules look at it: it stands for a field of the object type whose children it is among,
it has as many conditions as appearances, and it has children for exactly the object types that a
value of it can have.
-/

namespace GraphQL

/-! ## Possible types -/

namespace Schema

variable {schema : Schema}

/-- Possible types are object types of the schema. -/
theorem IsWellFormed.exists_of_possible (wellFormed : schema.IsWellFormed) {name objectName : String}
    (possible : objectName ∈ schema.possibleTypes name) :
    ∃ object, schema.type? objectName = some object ∧ object.isObject = true := by
  rcases exists_contributes possible with ⟨entry, entryMem, contributes⟩
  have entryFound := wellFormed.type?_of_mem entryMem
  cases contributes with
  | own isObject _ => exact ⟨entry.2, entryFound, isObject⟩
  | implements isObject _ => exact ⟨entry.2, entryFound, isObject⟩
  | member _ _ _ isObject => exact (Option.any_eq_true _ _).mp isObject

/-- Only the type itself takes a possible type away that was known before. -/
theorem mem_addPossible_of_ne {name object : String} {known : List String}
    {entry : String × SchemaType} (member : object ∈ known) (other : entry.1 ≠ name) :
    object ∈ schema.addPossible name known entry := by
  rcases entry with ⟨key, ⟨typeName, description, form⟩⟩
  cases form with
  | object fields interfaces =>
      simp only [addPossible, if_neg other]
      exact List.mem_append_left _ member
  | union members =>
      simp only [addPossible, if_neg other]
      exact member
  | scalar => exact member
  | interface fields interfaces => exact member
  | enum values => exact member
  | inputObject fields => exact member

/-- An object type is among its own possible types. -/
theorem IsWellFormed.possible_self (wellFormed : schema.IsWellFormed) {name : String}
    {type : SchemaType} (found : schema.type? name = some type) (isObject : type.isObject = true) :
    name ∈ schema.possibleTypes name := by
  rcases List.append_of_mem (OrderedMap.mem_of_find? found) with ⟨before, after, listed⟩
  have distinct := wellFormed.distinct
  simp only [listed, OrderedMap.keys, List.map_append, List.map_cons, List.nodup_append,
    List.nodup_cons] at distinct
  have others : ∀ entry ∈ after, entry.1 ≠ name := by
    intro entry member same
    exact distinct.2.1.1 (same ▸ List.mem_map_of_mem member)
  have own (known : List String) : name ∈ schema.addPossible name known (name, type) := by
    rcases type with ⟨typeName, description, form⟩
    cases form with
    | object fields interfaces => simp [addPossible]
    | _ => cases isObject
  have stays : ∀ (entries : List (String × SchemaType)) (known : List String),
      (∀ entry ∈ entries, entry.1 ≠ name) → name ∈ known →
        name ∈ entries.foldl (schema.addPossible name) known := by
    intro entries
    induction entries with
    | nil => exact fun known _ member => member
    | cons entry rest ih =>
        intro known different member
        refine ih _ (fun other otherMem => different other (List.mem_cons_of_mem _ otherMem)) ?_
        exact mem_addPossible_of_ne member (different entry List.mem_cons_self)
  rw [possibleTypes, listed, List.foldl_append, List.foldl_cons]
  exact stays after _ others (own _)

end Schema

/-! ## Nodes -/

/-- A node fits the schema where it stands: under a key, among the children for an object type. -/
structure PlanNode.IsTyped (schema : Schema) (lines? : Option LineIndex) (typeName key : String)
    (node : PlanNode) : Prop where
  key : node.responseKey = key
  owner : node.ownerType = typeName
  isObject : schema.isObjectType node.ownerType = true
  defined : ∃ field, schema.field? node.ownerType node.name = some field ∧
    field.type = node.returnType
  appears : 0 < node.spans.length
  conditions : node.conditions.length = node.spans.length
  locations : lines?.isSome = true → node.locations.length = node.spans.length
  distinct : (OrderedMap.keys node.typedChildren).Nodup
  composite : ∀ type, schema.type? node.returnType.innermost = some type →
    type.isComposite = true → ∀ name, name ∈ OrderedMap.keys node.typedChildren ↔
      name ∈ schema.possibleTypes node.returnType.innermost
  leaf : (∀ type, schema.type? node.returnType.innermost = some type → type.isComposite = false) →
    node.typedChildren = []

namespace Plan

/-- A node stands in a plan: among the children for an object type, under a key. -/
inductive HasNode (plan : Plan) : String → String → PlanNode → Prop where
  | operation {name key : String} {operation : PlanOperation} {node : PlanNode}
      (member : (name, operation) ∈ plan.operations) (child : (key, node) ∈ operation.children) :
      HasNode plan operation.rootType key node
  | fragment {name key typeName : String} {fragment : PlanFragment} {children : PlanChildren}
      {node : PlanNode} (member : (name, fragment) ∈ plan.fragments)
      (typed : (typeName, children) ∈ fragment.typedChildren) (child : (key, node) ∈ children) :
      HasNode plan typeName key node
  | child {outerType outerKey key typeName : String} {children : PlanChildren}
      {outer node : PlanNode} (parent : HasNode plan outerType outerKey outer)
      (typed : (typeName, children) ∈ outer.typedChildren) (child : (key, node) ∈ children) :
      HasNode plan typeName key node

variable {sources : Sources}

/-- The object types that a value of a field can have, by name. -/
theorem mem_map_name_childTypes_iff (wellFormed : sources.schema.IsWellFormed)
    {definition : OutputField} {type : SchemaType}
    (found : sources.schema.type? definition.type.innermost = some type)
    (composite : type.isComposite = true) {name : String} :
    name ∈ (sources.childTypes definition).map (·.name) ↔
      name ∈ sources.schema.possibleTypes definition.type.innermost := by
  simp only [Sources.childTypes, found, composite, if_true, wellFormed.name_eq found,
    List.mem_map, List.mem_filterMap]
  constructor
  · rintro ⟨object, ⟨objectName, possible, known⟩, rfl⟩
    rwa [wellFormed.name_eq known]
  · intro possible
    rcases wellFormed.exists_of_possible possible with ⟨object, known, _⟩
    exact ⟨object, ⟨name, possible, known⟩, wellFormed.name_eq known⟩

/-- A node that is made of a group fits the schema. -/
theorem IsGroup.isTyped (wellFormed : sources.schema.IsWellFormed) {object : SchemaType}
    {key : String} {first : Appearance} {others : List Appearance}
    (isGroup : IsGroup sources object (first :: others))
    (defined : sources.schema.field? object.name first.field.name.text = some first.definition)
    (children : SchemaType → List Appearance → PlanChildren) :
    (sources.node children object key first others).IsTyped sources.schema sources.lines?
      object.name key := by
  rcases isGroup.object_known wellFormed with ⟨objectKnown, isObject⟩
  have names : (OrderedMap.keys ((sources.childTypes first.definition).map fun type =>
      (type.name, children type (sources.innerAppearances type (first :: others))))) =
      (sources.childTypes first.definition).map (·.name) := by
    simp [OrderedMap.keys, Function.comp_def]
  refine
    { key := rfl
      owner := rfl
      isObject := ?_
      defined := ⟨first.definition, ?_, rfl⟩
      appears := by simp [Sources.node]
      conditions := by simp [Sources.node]
      locations := ?_
      distinct := OrderedMap.nodup_keys_ofPairs _
      composite := ?_
      leaf := ?_ }
  · simp [Schema.isObjectType, Sources.node, objectKnown, isObject]
  · have sameName := wellFormed.field_name defined
    simpa only [Sources.node, sameName] using defined
  · intro hasLines
    rcases Option.isSome_iff_exists.mp hasLines with ⟨lines, known⟩
    simp [Sources.node, known]
  · intro type found composite name
    have possible : name ∈ (sources.childTypes first.definition).map (·.name) ↔
        name ∈ sources.schema.possibleTypes first.definition.type.innermost :=
      mem_map_name_childTypes_iff wellFormed found composite
    rw [← names] at possible
    exact OrderedMap.mem_keys_ofPairs_iff.trans possible
  · intro isLeaf
    have nothing : sources.childTypes first.definition = [] := by
      unfold Sources.childTypes
      cases found : sources.schema.type? first.definition.type.innermost with
      | none => rfl
      | some type => simp [isLeaf type found]
    simp only [Sources.node, nothing]
    rfl

/-- What a group is made of has the definition that its object type gives it. -/
theorem IsGroup.defined {object : SchemaType} {group : List Appearance}
    (isGroup : IsGroup sources object group) {appearance : Appearance}
    (member : appearance ∈ group) :
    sources.schema.field? object.name appearance.field.name.text = some appearance.definition := by
  cases isGroup with
  | operation _ _ grouped =>
      exact (mem_appearances_iff.mp (mem_of_grouped grouped member).1).defined
  | fragment _ _ _ grouped =>
      exact (mem_appearances_iff.mp (mem_of_grouped grouped member).1).defined
  | child _ _ grouped =>
      rcases mem_innerAppearances_iff.mp (mem_of_grouped grouped member).1 with
        ⟨_, _, _, _, appears⟩
      exact appears.defined

/-- Every node of a plan is made of a group. -/
theorem HasNode.exists_group {schema : Schema} {document : Document} {lines? : Option LineIndex}
    {typeName key : String} {node : PlanNode}
    (hasNode : HasNode (ofDocument schema document lines?) typeName key node) :
    ∃ depth object first others,
      IsGroup { schema, document, lines? } object (first :: others) ∧ object.name = typeName ∧
      node = Sources.node { schema, document, lines? }
        (Sources.nodesWithin { schema, document, lines? } depth) object key first others := by
  induction hasNode with
  | operation member child =>
      rcases exists_operation_of_mem_ofDocument member with ⟨definition, definitionMem, made⟩
      rcases Option.bind_eq_some_iff.mp made with ⟨root, starts, made⟩
      simp only [Option.pure_def, Option.some.injEq] at made
      subst made
      rcases mem_nodesWithin child with ⟨inner, first, others, _, grouped, rfl⟩
      exact ⟨inner, root, first, others, .operation definitionMem starts grouped, rfl, rfl⟩
  | fragment member typed child =>
      rcases exists_fragment_of_mem_ofDocument member with ⟨definition, definitionMem, made⟩
      rcases Option.bind_eq_some_iff.mp made with ⟨condition, known, made⟩
      split at made
      · simp only [Option.pure_def, Option.some.injEq] at made
        subst made
        rcases List.mem_map.mp (OrderedMap.mem_of_mem_ofPairs typed) with
          ⟨object, possible, same⟩
        simp only [Prod.mk.injEq] at same
        rcases same with ⟨rfl, rfl⟩
        rcases mem_nodesWithin child with ⟨inner, first, others, _, grouped, rfl⟩
        exact ⟨inner, object, first, others, .fragment definitionMem known possible grouped, rfl,
          rfl⟩
      · cases made
  | child _ typed child ih =>
      rcases ih with ⟨depth, outer, head, tail, parent, _, rfl⟩
      rcases mem_typedChildren_node typed with ⟨object, possible, same⟩
      cases same
      rcases mem_nodesWithin child with ⟨inner, first, others, _, grouped, rfl⟩
      exact ⟨inner, object, first, others, .child parent possible grouped, rfl, rfl⟩

/-- Every node of a plan fits the schema where it stands. -/
theorem HasNode.isTyped {schema : Schema} (wellFormed : schema.IsWellFormed) {document : Document}
    {lines? : Option LineIndex} {typeName key : String} {node : PlanNode}
    (hasNode : HasNode (ofDocument schema document lines?) typeName key node) :
    node.IsTyped schema lines? typeName key := by
  rcases hasNode.exists_group with ⟨depth, object, first, others, isGroup, rfl, rfl⟩
  exact isGroup.isTyped wellFormed (isGroup.defined List.mem_cons_self) _

end Plan

end GraphQL

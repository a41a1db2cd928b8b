import GraphQL.Proofs.Execution.Correctness
import GraphQL.Proofs.Execution.Outcome
import GraphQL.Proofs.Schema.Conforming

/-!
# Data that conform to their operation

Whatever the code of a host does, the data of a response are null or an object with the included
fields of the operation, and every position in them has the form of its declared type: it is null
only if it can be, a leaf has the value that was resolved, a list has items of its item type, and an
object has the included fields for one of its possible types.
-/

namespace GraphQL

/-- A value conforms to a type, as the type of a field at a path of an execution with some trace. -/
inductive Conforms {Object : Type} (schema : Schema) (bindings : Variables)
    (trace : List (Occurrence Object)) : PlanNode → TypeRef → ResponsePath → Json → Prop where
  | null {node : PlanNode} {type : TypeRef} {path : ResponsePath}
      (nullable : type.isNonNull = false) : Conforms schema bindings trace node type path .null
  | leaf {node : PlanNode} {type : TypeRef} {path : ResponsePath} {name : String}
      {found : SchemaType} {value : Json} (isNamed : type.core = .named name)
      (isFound : schema.type? name = some found) (isLeaf : found.isLeaf = true)
      (notNull : value.isNull = false) (produced : Produced trace path (.json value)) :
      Conforms schema bindings trace node type path value
  | list {node : PlanNode} {type item : TypeRef} {path : ResponsePath} {items : List Json}
      (isList : type.core = .list item)
      (each : ∀ position value, items[position]? = some value →
        Conforms schema bindings trace node item (path ++ [.index position]) value) :
      Conforms schema bindings trace node type path (.array items)
  /-- The object type is the type itself if that is an object type. -/
  | object {node : PlanNode} {type : TypeRef} {path : ResponsePath} {name objectType : String}
      {found : SchemaType} {children : List PlanNode} {fields : List (String × Json)}
      (isNamed : type.core = .named name) (isFound : schema.type? name = some found)
      (isComposite : found.isComposite = true)
      (concrete : if found.isObject then objectType = name
        else objectType ∈ schema.possibleTypes name)
      (selected : (childrenOf node.typedChildren objectType).included bindings = children)
      (keys : OrderedMap.keys fields = children.map PlanNode.responseKey)
      (each : ∀ child ∈ children, ∀ value, (child.responseKey, value) ∈ fields →
        Conforms schema bindings trace child child.returnType
          (path ++ [.field child.responseKey]) value) :
      Conforms schema bindings trace node type path (.object fields)

/-- Data conform to an operation: they are null or have its included fields. -/
def PlanOperation.IsConformed {Object : Type} (operation : PlanOperation) (schema : Schema)
    (bindings : Variables) (trace : List (Occurrence Object)) (data : Json) : Prop :=
  data = .null ∨ ∃ fields, data = .object fields ∧
    OrderedMap.keys fields =
      (operation.children.included bindings).map PlanNode.responseKey ∧
    ∀ child ∈ operation.children.included bindings, ∀ value, (child.responseKey, value) ∈ fields →
      Conforms schema bindings trace child child.returnType [.field child.responseKey] value

section

variable {Object : Type} {known : Evidence Object} {node : PlanNode} {type : TypeRef}
  {path : ResponsePath} {tree : ResponseTree} {children : List PlanNode}
  {fields : List (String × Bool × ResponseTree)}

theorem keys_fieldsToJson (fields : List (String × Bool × ResponseTree)) :
    OrderedMap.keys (ResponseTree.fieldsToJson fields) = OrderedMap.keys fields := by
  rw [Agrees.fieldsToJson_eq]
  simp [OrderedMap.keys]

theorem Evidence.HasFields.exists_field (has : known.HasFields path children fields)
    {child : PlanNode} (member : child ∈ children) {value : Json}
    (field : (child.responseKey, value) ∈ ResponseTree.fieldsToJson fields) :
    ∃ tree, value = tree.toJson ∧
      (child.responseKey, !child.returnType.isNonNull, tree) ∈ fields := by
  rw [Agrees.fieldsToJson_eq] at field
  rcases List.mem_map.mp field with ⟨⟨key, nullable, tree⟩, isField, same⟩
  cases same
  rcases has.exists_child isField with ⟨other, otherMem, sameKey, rfl⟩
  have distinct := has.distinct
  rw [ResponseTree.keys_of_heads has.heads] at distinct
  cases List.inj_on_of_nodup_map distinct otherMem member sameKey
  exact ⟨tree, rfl, isField⟩

/-- Where no task waits, what has the form of its type shows data that conform to the type. -/
theorem Shaped.conforms (shaped : Shaped known node type path tree)
    (wellFormed : known.schema.IsWellFormed) (settled : known.tasks = []) :
    Conforms known.schema known.bindings known.trace node type path tree.toJson := by
  induction shaped with
  | waiting awaited =>
      rcases awaited with ⟨task, member, _⟩
      rw [settled] at member
      cases member
  | null nullable cause => exact .null nullable
  | leaf isNamed isFound isLeaf notNull produced =>
      exact .leaf isNamed isFound isLeaf notNull produced
  | list isList each ih =>
      refine .list isList ?_
      intro position value found
      rw [Agrees.itemsToJson_eq, List.getElem?_map, Option.map_eq_some_iff] at found
      rcases found with ⟨tree, found, rfl⟩
      exact ih position tree found
  | object isNamed isFound isComposite concrete selected heads distinct resolved each ih =>
      rw [Schema.Concretes, wellFormed.name_eq isFound] at concrete
      refine .object isNamed isFound isComposite concrete selected ?_ ?_
      · rw [keys_fieldsToJson]
        exact ResponseTree.keys_of_heads heads
      · intro child member value field
        have has : known.HasFields _ _ _ := ⟨heads, distinct, resolved, each⟩
        rcases has.exists_field member field with ⟨tree, rfl, isField⟩
        exact ih child member tree isField

theorem Evidence.HasRoot.isConformed {operation : PlanOperation}
    (root : known.HasRoot (operation.children.included known.bindings) tree)
    (wellFormed : known.schema.IsWellFormed) (settled : known.tasks = []) :
    operation.IsConformed known.schema known.bindings known.trace tree.toJson := by
  cases root with
  | null fails => exact .inl rfl
  | object has =>
      refine .inr ⟨_, rfl, ?_, ?_⟩
      · rw [keys_fieldsToJson]
        exact ResponseTree.keys_of_heads has.heads
      · intro child member value field
        rcases has.exists_field member field with ⟨tree, rfl, isField⟩
        exact (has.each child member tree isField).conforms wellFormed settled

end

/-! ## Responses -/

namespace Executor

variable {host : Host}

/-- The record of a request is that of a settled operation. -/
theorem record_outcome {executor : Executor host} (typed : executor.accessors.IsTyped)
    {document : Document} {lines? : Option LineIndex} {request : Request host}
    {operation : PlanOperation} {bindings : Variables}
    (prepared : executor.prepare (Plan.ofDocument executor.schema document lines?) request.operation
      request.bindings = .ok (operation, bindings)) (session : Session host) :
    Outcome (executor.environment bindings request.context)
      (operation.children.included bindings)
      (executor.record request operation bindings session).1
      (executor.record request operation bindings session).2 := by
  rcases exists_mem_of_prepare prepared with ⟨key, member⟩
  exact recordedOperation_outcome (settles_environment typed bindings request.context)
    (Plan.operation_isKeyed member) request.root session

/-- The data of a response conform to the operation. -/
theorem execute_conforms {executor : Executor host} (typed : executor.accessors.IsTyped)
    {source : String} (accepted : Schema.ofSource source = .ok executor.schema)
    {document : Document} {lines? : Option LineIndex} {request : Request host}
    {operation : PlanOperation} {bindings : Variables}
    (prepared : executor.prepare (Plan.ofDocument executor.schema document lines?) request.operation
      request.bindings = .ok (operation, bindings)) (session : Session host) :
    let record := executor.record request operation bindings session
    executor.execute (Plan.ofDocument executor.schema document lines?) request session =
        (.ofData record.1.toJson record.2.errors, record.2.outside.outside) ∧
      (∀ path, record.1.sight path ≠ .waiting) ∧
      operation.IsConformed executor.schema bindings record.2.outside.trace record.1.toJson := by
  intro record
  have outcome := record_outcome typed prepared session
  refine ⟨execute_eq_record prepared session, fun path => outcome.root.sight_ne_waiting rfl path, ?_⟩
  exact outcome.root.isConformed (Schema.ofSource_isWellFormed accepted) rfl

end Executor

namespace LazyFields

theorem isTyped (schema : Schema) : (executor schema).accessors.IsTyped :=
  .initial fun object => object.elim

/-- The object on the left is null since one of its fields fails and cannot be null. -/
def data : Json :=
  .object [("left", .null), ("right", .object [("name", .string "right")])]

theorem executes :
    (Schema.ofSource
        ("type Node { name: String secret: String! word: String! } "
          ++ "type Query { left: Node right: Node! }")).toBool = true ∧
      ((executor schema).prepare plan none []).toOption.any (fun (operation, bindings) =>
        ((executor schema).record request operation bindings session).1.toJson == data) = true := by
  decide +kernel

theorem data_conform :
    ∃ operation bindings,
      (executor schema).prepare plan request.operation request.bindings = .ok (operation, bindings) ∧
      let record := (executor schema).record request operation bindings session
      (executor schema).execute plan request session =
          (.ofData record.1.toJson record.2.errors, record.2.outside.outside) ∧
        (∀ path, record.1.sight path ≠ .waiting) ∧
        operation.IsConformed schema bindings record.2.outside.trace record.1.toJson ∧
        (record.1.toJson == data) = true := by
  rcases executes with ⟨accepted, shows⟩
  rcases exists_ok_of_any shows with ⟨⟨operation, bindings⟩, prepared, same⟩
  have prepares : (executor schema).prepare plan request.operation request.bindings =
      .ok (operation, bindings) := prepared
  rcases Executor.execute_conforms (isTyped schema) (eq_ok_of_toBool accepted {}) prepares session with
    ⟨executed, settled, conforms⟩
  exact ⟨operation, bindings, prepares, executed, settled, conforms, same⟩

end LazyFields

end GraphQL

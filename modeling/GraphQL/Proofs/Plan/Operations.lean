import GraphQL.Proofs.Execution.Conformance
import GraphQL.Proofs.Plan.Groups

/-!
# The operations of a plan

A plan keeps its operations by name, those without a name under the empty text, and adds one only
under a new key. In a document that validation accepts every definition can be planned, as there is
an object type for it to start at. But no rule looks at the names of operations, so what a plan has
are the first definitions of their keys: it has all of them just where no key is repeated.
-/

namespace GraphQL

/-- What an operation is kept under: its name, or the empty text. -/
def OperationDefinition.key (definition : OperationDefinition) : String :=
  (definition.name.map Name.text).getD ""

/-- The operations of a document under their keys. -/
def Document.keyedOperations (document : Document) : List (String × OperationDefinition) :=
  document.operations.map fun definition => (definition.key, definition)

theorem Document.keys_keyedOperations (document : Document) :
    OrderedMap.keys document.keyedOperations = document.operations.map (·.key) := by
  simp [keyedOperations, OrderedMap.keys]

theorem Document.find?_keyedOperations (document : Document) (name : String) :
    OrderedMap.find? document.keyedOperations name =
      document.operations.find? fun definition => definition.key = name := by
  unfold keyedOperations
  induction document.operations with
  | nil => rfl
  | cons definition rest ih =>
      rw [List.map_cons, OrderedMap.find?_cons, List.find?_cons]
      by_cases same : definition.key = name
      · simp [same]
      · simp only [same, if_false, decide_false]
        exact ih

/-! ## Where operations start -/

/-- The walk meets every operation. -/
theorem Event.mem_ofDocument_operation {schema : Schema} {document : Document}
    {definition : OperationDefinition} (member : definition ∈ document.operations) :
    Event.operation definition ((schema.rootTypeName? definition.kind).bind schema.type?) ∈
      Event.ofDocument schema document := by
  rcases List.mem_filterMap.mp member with ⟨other, inDocument, isOperation⟩
  refine List.mem_append_left _ (List.mem_flatMap.mpr ⟨other, inDocument, ?_⟩)
  cases other with
  | operation other =>
      cases isOperation
      exact List.mem_cons_self
  | _ => cases isOperation

/-- Where the rule on fields finds nothing, every operation has an object type to start at. -/
theorem Document.exists_rootType {schema : Schema} (wellFormed : schema.IsWellFormed)
    {document : Document} (valid : document.IsValid schema) {definition : OperationDefinition}
    (member : definition ∈ document.operations) :
    ∃ root, schema.rootType? definition.kind = some root := by
  have silent := Rule.ofEvent_silent (valid .fieldsOnCorrectType (by decide))
    (Event.mem_ofDocument_operation member)
  cases found : (schema.rootTypeName? definition.kind).bind schema.type? with
  | none =>
      rw [found] at silent
      cases silent
  | some root =>
      rcases Option.bind_eq_some_iff.mp found with ⟨name, named, known⟩
      have isObject := wellFormed.rootsAreObjects _ _ named
      rw [Schema.isObjectType, known, Option.any_some] at isObject
      exact ⟨root, by simp [Schema.rootType?, found, isObject]⟩

namespace Plan

variable {sources : Sources}

theorem Sources.key_of_operation? {definition : OperationDefinition} {operation : PlanOperation}
    (made : sources.operation? definition = some operation) :
    operation.name.getD "" = definition.key := by
  rcases Option.bind_eq_some_iff.mp made with ⟨root, _, same⟩
  cases same
  rfl

theorem operations_foldl_addDefinition (definitions : List Definition) (plan : Plan) :
    (definitions.foldl sources.addDefinition plan).operations =
      ((definitions.filterMap fun
          | .operation definition =>
              (sources.operation? definition).map fun operation => (definition.key, operation)
          | _ => none).foldl
        (fun map entry => map.insertIfNew entry.1 entry.2) plan.operations) := by
  induction definitions generalizing plan with
  | nil => rfl
  | cons definition rest ih =>
      rw [List.foldl_cons, ih]
      cases definition with
      | operation definition =>
          cases made : sources.operation? definition with
          | none => simp [Sources.addDefinition, made]
          | some operation =>
              simp [Sources.addDefinition, made, Sources.key_of_operation? made]
      | fragment definition =>
          simp only [Sources.addDefinition, List.filterMap_cons]
          split <;> rfl
      | schema definition => rfl
      | type definition => rfl
      | directive definition => rfl

/-- If all operations can be planned, a plan has the first ones of their keys. -/
theorem operations_ofDocument {schema : Schema} {document : Document} {lines? : Option LineIndex}
    (made : ∀ definition ∈ document.operations, ∃ operation,
      Sources.operation? { schema, document, lines? } definition = some operation) :
    (ofDocument schema document lines?).operations.mapValues some =
      (OrderedMap.firsts document.keyedOperations).mapValues
        (Sources.operation? { schema, document, lines? }) := by
  let keyed? (definition : OperationDefinition) : Option (String × PlanOperation) :=
    (Sources.operation? { schema, document, lines? } definition).map fun operation =>
      (definition.key, operation)
  have inOrder : (document.definitions.filterMap fun
      | .operation definition => keyed? definition
      | _ => none) = document.operations.filterMap keyed? := by
    rw [Document.operations, List.filterMap_filterMap]
    congr 1
    funext definition
    cases definition <;> rfl
  have entries : OrderedMap.mapValues (document.operations.filterMap keyed?) some =
      OrderedMap.mapValues document.keyedOperations
        (Sources.operation? { schema, document, lines? }) := by
    unfold Document.keyedOperations
    generalize document.operations = definitions at made
    induction definitions with
    | nil => rfl
    | cons definition rest ih =>
        rcases made definition List.mem_cons_self with ⟨operation, planned⟩
        have first : keyed? definition = some (definition.key, operation) := by
          simp only [keyed?, planned, Option.map_some]
        have others := ih fun other member => made other (List.mem_cons_of_mem _ member)
        rw [List.filterMap_cons_some first]
        simp only [OrderedMap.mapValues, List.map_cons, planned] at others ⊢
        rw [others]
  rw [ofDocument, operations_foldl_addDefinition, inOrder, OrderedMap.foldl_insertIfNew,
    OrderedMap.keys_nil]
  simp only [List.not_mem_nil, not_false_eq_true, decide_true, List.filter_true, List.nil_append]
  rw [← OrderedMap.firsts_mapValues, entries, OrderedMap.firsts_mapValues]

/-! ## Selecting an operation -/

section Selection

variable {plan : Plan} {document : Document} {planned : OperationDefinition → Option PlanOperation}
  (entries : plan.operations.mapValues some =
    (OrderedMap.firsts document.keyedOperations).mapValues planned)

include entries

theorem operation?_some (name : String) :
    plan.operation? (some name) =
      (document.operations.find? fun definition => definition.key = name).bind planned := by
  have lookups := congrArg (OrderedMap.find? · name) entries
  simp only [OrderedMap.find?_mapValues, OrderedMap.find?_firsts,
    Document.find?_keyedOperations] at lookups
  cases found : document.operations.find? fun definition => definition.key = name with
  | none =>
      rw [found] at lookups
      exact Option.map_eq_none_iff.mp lookups
  | some definition =>
      rw [found] at lookups
      rcases Option.map_eq_some_iff.mp lookups with ⟨operation, selected, same⟩
      exact selected.trans same

theorem operation?_none_iff {operation : PlanOperation} :
    plan.operation? none = some operation ↔
      ∃ first rest, document.operations = first :: rest ∧
        (∀ other ∈ rest, other.key = first.key) ∧ planned first = some operation := by
  have isOnly : plan.operation? none = some operation ↔
      ∃ key, plan.operations = [(key, operation)] := by
    rcases plan with ⟨operations, fragments⟩
    rcases operations with _ | ⟨⟨key, only⟩, _ | ⟨second, rest⟩⟩ <;> simp [Plan.operation?]
  rw [isOnly]
  constructor
  · rintro ⟨key, alone⟩
    rw [alone] at entries
    rcases List.map_eq_singleton_iff.mp entries.symm with ⟨⟨firstKey, first⟩, isFirst, same⟩
    simp only [Prod.mk.injEq] at same
    rcases OrderedMap.firsts_eq_singleton_iff.mp isFirst with ⟨rest, split, sameKeys⟩
    rcases List.map_eq_cons_iff.mp split with ⟨definition, others, inDocument, named, rfl⟩
    cases named
    refine ⟨first, others, inDocument, ?_, same.2⟩
    intro other member
    exact sameKeys _ (List.mem_map_of_mem member)
  · rintro ⟨first, rest, inDocument, sameKeys, made⟩
    have isFirst : OrderedMap.firsts document.keyedOperations = [(first.key, first)] := by
      refine OrderedMap.firsts_eq_singleton_iff.mpr
        ⟨rest.map fun other => (other.key, other), ?_, ?_⟩
      · rw [Document.keyedOperations, inDocument, List.map_cons]
      · intro entry member
        rcases List.mem_map.mp member with ⟨other, otherMem, rfl⟩
        exact sameKeys other otherMem
    rw [isFirst] at entries
    rcases List.map_eq_singleton_iff.mp entries with ⟨⟨key, only⟩, alone, same⟩
    simp only [Prod.mk.injEq, made, Option.some.injEq] at same
    exact ⟨key, by rw [alone, same.2]⟩

theorem values_operations_iff :
    plan.operations.values.map some = document.operations.map planned ↔
      (document.operations.map (·.key)).Nodup := by
  have values := congrArg OrderedMap.values entries
  rw [OrderedMap.values_mapValues, OrderedMap.values_mapValues] at values
  rw [values, ← Document.keys_keyedOperations, ← OrderedMap.length_firsts_iff]
  constructor
  · intro same
    have lengths := congrArg List.length same
    simpa [OrderedMap.values, Document.keyedOperations] using lengths
  · intro same
    rw [(OrderedMap.firsts_sublist _).eq_of_length same]
    simp [OrderedMap.values, Document.keyedOperations]

end Selection

/-- The plan of a document that validation accepts has the plans of the first operations of their
keys, in their order; these are all operations if no key is repeated, and only then. A name selects
the first operation of that key. No name selects an operation if all definitions have one key. So if
no key is repeated, it does if there is one definition, and each definition is selected by its key.
-/
theorem operations_exact {source : String} {schema : Schema} {document : Document}
    {limits : ValidationLimits} {lines? : Option LineIndex} {result : ValidationResult}
    (accepted : Schema.ofSource source = .ok schema)
    (validated : Validator.validate { schema, rules := RuleKind.all, limits } document lines? =
      .ok result)
    (valid : result.findings = []) :
    let plan := ofDocument schema document lines?
    let planned := Sources.operation? { schema, document, lines? }
    let distinct := (document.operations.map (·.key)).Nodup
    result.plan? = some plan ∧
      (∀ definition ∈ document.operations, ∃ operation, planned definition = some operation) ∧
      plan.operations.mapValues some =
        (OrderedMap.firsts document.keyedOperations).mapValues planned ∧
      (plan.operations.values.map some = document.operations.map planned ↔ distinct) ∧
      (∀ name, plan.operation? (some name) =
        (document.operations.find? fun definition => definition.key = name).bind planned) ∧
      (∀ operation, plan.operation? none = some operation ↔
        ∃ first rest, document.operations = first :: rest ∧
          (∀ other ∈ rest, other.key = first.key) ∧ planned first = some operation) ∧
      (distinct →
        ((plan.operation? none).isSome ↔ document.operations.length = 1) ∧
          ∀ definition ∈ document.operations,
            plan.operation? (some definition.key) = planned definition) := by
  intro plan planned distinct
  have wellFormed := Schema.ofSource_isWellFormed accepted
  have isValid := Validator.isValid_of_validate rfl validated valid
  have made : ∀ definition ∈ document.operations, ∃ operation,
      planned definition = some operation := by
    intro definition member
    rcases Document.exists_rootType wellFormed isValid member with ⟨root, starts⟩
    exact ⟨_, Option.bind_eq_some_iff.mpr ⟨root, starts, rfl⟩⟩
  have entries : plan.operations.mapValues some = _ := operations_ofDocument made
  refine ⟨Validator.plan?_of_validate validated valid, made, entries, values_operations_iff entries,
    operation?_some entries, fun operation => operation?_none_iff entries, ?_⟩
  intro isDistinct
  constructor
  · rw [Option.isSome_iff_exists]
    constructor
    · rintro ⟨operation, selected⟩
      rcases (operation?_none_iff entries).mp selected with ⟨first, rest, inDocument, sameKeys, _⟩
      have fresh : first.key ∉ rest.map (·.key) := by
        have distinctKeys : ((first :: rest).map (·.key)).Nodup := inDocument ▸ isDistinct
        exact (List.nodup_cons.mp distinctKeys).1
      cases rest with
      | nil => rw [inDocument]; rfl
      | cons other others =>
          have repeated : other.key ∈ (other :: others).map (·.key) := List.mem_cons_self
          exact absurd (sameKeys other List.mem_cons_self ▸ repeated) fresh
    · intro single
      rcases List.length_eq_one_iff.mp single with ⟨first, inDocument⟩
      rcases made first (by simp [inDocument]) with ⟨operation, isPlanned⟩
      exact ⟨operation, (operation?_none_iff entries).mpr
        ⟨first, [], inDocument, by simp, isPlanned⟩⟩
  · intro definition member
    have entry : (definition.key, definition) ∈ document.keyedOperations :=
      List.mem_map_of_mem (f := fun definition => (definition.key, definition)) member
    have keysDistinct : (OrderedMap.keys document.keyedOperations).Nodup := by
      rw [Document.keys_keyedOperations]
      exact isDistinct
    have found := OrderedMap.find?_of_mem keysDistinct entry
    rw [Document.find?_keyedOperations] at found
    exact (operation?_some entries _).trans (by rw [found]; rfl)

namespace TwoNames

def source : String :=
  "type Query { a: Int b: Int } type Mutation { c: Int }"

def schema : Schema :=
  (Schema.ofSource source).toOption.getD {}

/-- A named query, an anonymous one and a mutation. -/
def document : Document :=
  ((Document.parse "query A { a } { b } mutation C { c }").toOption.map (·.document)).getD
    ⟨[], ⟨0, 0⟩⟩

theorem evaluation :
    (Schema.ofSource source).toBool = true ∧
      ((Validator.validate { schema } document).toOption.any
        fun result => result.findings.isEmpty) = true ∧
      (document.operations.map (·.key)) = ["A", "", "C"] := by
  decide +kernel

/-- All three operations are kept and selected by their keys, and none is selected without a name. -/
theorem all_kept :
    let plan := ofDocument schema document none
    let planned := Sources.operation? { schema, document, lines? := none }
    plan.operations.values.map some = document.operations.map planned ∧
      plan.operation? none = none ∧
      ∀ definition ∈ document.operations, ∃ operation,
        plan.operation? (some definition.key) = some operation ∧
          planned definition = some operation := by
  intro plan planned
  rcases evaluation with ⟨accepted, passes, keys⟩
  rcases exists_ok_of_any passes with ⟨result, validated, silent⟩
  rcases operations_exact (eq_ok_of_toBool accepted {}) validated (List.isEmpty_iff.mp silent) with
    ⟨_, made, _, all, _, _, distinctOnly⟩
  have distinct : (document.operations.map (·.key)).Nodup := by
    rw [keys]
    decide
  have three : document.operations.length = 3 := by
    rw [← List.length_map (f := (·.key)), keys]
    rfl
  rcases distinctOnly distinct with ⟨alone, selected⟩
  refine ⟨all.mpr distinct, ?_, ?_⟩
  · rw [three] at alone
    exact Option.not_isSome_iff_eq_none.mp fun isSome => absurd (alone.mp isSome) (by decide)
  · intro definition member
    rcases made definition member with ⟨operation, isPlanned⟩
    exact ⟨operation, (selected definition member).trans isPlanned, isPlanned⟩

end TwoNames

namespace TwoAnonymous

def source : String :=
  "type Query { a: Int b: Int }"

def schema : Schema :=
  (Schema.ofSource source).toOption.getD {}

/-- Two operations without a name. -/
def document : Document :=
  ((Document.parse "{ a } { b }").toOption.map (·.document)).getD ⟨[], ⟨0, 0⟩⟩

def request : Request LazyFields.host where
  root := .ofJson (.object [("a", .int 1), ("b", .int 2)])

theorem evaluation :
    (Schema.ofSource source).toBool = true ∧
      ((Validator.validate { schema } document).toOption.any
        fun result => result.findings.isEmpty) = true ∧
      document.operations.length = 2 ∧
      ((ofDocument schema document none).operations.map fun entry =>
        (entry.1, entry.2.children.keys)) = [("", ["a"])] ∧
      ((ofDocument schema document none).operation? none).isSome = true ∧
      ((LazyFields.executor schema).execute (ofDocument schema document none) request
        LazyFields.session).1.data.any (· == .object [("a", .int 1)]) = true := by
  decide +kernel

/-- The second operation is lost without a finding, and the first is selected and executed, though
the document has two and the request names none. -/
theorem second_lost :
    Schema.ofSource source = .ok schema ∧
      (∃ result, Validator.validate { schema } document = .ok result ∧ result.findings = []) ∧
      document.operations.length = 2 ∧
      ((ofDocument schema document none).operations.map fun entry =>
        (entry.1, entry.2.children.keys)) = [("", ["a"])] ∧
      ((ofDocument schema document none).operation? none).isSome = true ∧
      ((LazyFields.executor schema).execute (ofDocument schema document none) request
        LazyFields.session).1.data.any (· == .object [("a", .int 1)]) = true := by
  rcases evaluation with ⟨accepted, passes, rest⟩
  rcases exists_ok_of_any passes with ⟨result, validated, silent⟩
  exact ⟨eq_ok_of_toBool accepted {}, ⟨result, validated, List.isEmpty_iff.mp silent⟩, rest⟩

end TwoAnonymous

end Plan
end GraphQL

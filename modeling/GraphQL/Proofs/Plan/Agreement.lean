import GraphQL.Proofs.Parsing.Numbering
import GraphQL.Proofs.Plan.Levels
import GraphQL.Proofs.Plan.Texts

/-!
# Plans agree with direct collection

Whatever the variables are, the children of a plan that are included at some level are the fields
that a direct collection over the document finds there, and each of them has the name and the
arguments of all fields that it stands for.
-/

namespace GraphQL
namespace Plan

/-- At every level of a plan the included children have the response keys of the fields that are
collected directly, and the field name and the arguments of all fields with their key. -/
theorem included_children_eq_collected {source : String} {schema : Schema} {document : Document}
    {limits : ValidationLimits} {lines? : Option LineIndex} {result : ValidationResult}
    (accepted : Schema.ofSource source = .ok schema) (conforming : schema.IsConforming)
    (numbered : document.HasDistinctNumbers) (named : document.HasTokenNames)
    (finite : document.HasFiniteNumbers)
    (validated : Validator.validate { schema, rules := RuleKind.all, limits } document lines? =
      .ok result)
    (valid : result.findings = []) {name : String} {planned : PlanOperation}
    (member : (name, planned) ∈ (ofDocument schema document lines?).operations) :
    ∃ definition ∈ document.operations,
      Sources.operation? { schema, document, lines? } definition = some planned ∧
      ∀ {bindings : Variables} {object : SchemaType} {sets : SelectionSet → Prop}
        {children : PlanChildren},
        Level { schema, document, lines? } bindings definition object sets children →
        (∀ key, (∃ node, (key, node) ∈ children ∧ node.isIncluded bindings = true) ↔
          ∃ head selections, (∃ set, sets set ∧
            Collects schema document bindings object set.items head selections) ∧
              head.responseKey = key) ∧
        ∀ key node, (key, node) ∈ children → ∀ head selections, (∃ set, sets set ∧
          Collects schema document bindings object set.items head selections) →
            head.responseKey = key →
              node.name = head.name.text ∧
                ∀ name, OrderedMap.find? node.arguments name = head.planArguments.find? name := by
  have wellFormed := Schema.ofSource_isWellFormed accepted
  have isValid := Validator.isValid_of_validate rfl validated valid
  rcases exists_operation_of_mem_ofDocument member with ⟨definition, inDocument, made⟩
  refine ⟨definition, inDocument, made, ?_⟩
  intro bindings object sets children level
  rcases level.exists_comprises wellFormed isValid.not_leads_self inDocument with
    ⟨depth, found, comprises, rfl⟩
  constructor
  · intro key
    exact comprises.exists_included_iff
  · intro key node nodeMem head selections collected sameKey
    exact comprises.node_agrees wellFormed conforming numbered named finite isValid nodeMem collected
      sameKey

namespace OneNumber

def source : String :=
  "interface A { a(n: Float): A } type B implements A { a(n: Float): B } type Query { a: A }"

def schema : Schema :=
  (Schema.ofSource source).toOption.getD {}

/-- A field with one number, written in two ways, once under a condition. -/
def request : String :=
  "query Q($v: Boolean) { a { a(n: 0.5) @skip(if: $v) { __typename } } ...F } "
    ++ "fragment F on Query { a { ... on B { a(n: 5e-1) { __typename } } } }"

theorem evaluation :
    (Schema.ofSource source).toBool = true ∧ schema.IsConforming ∧
      ((Document.parse request).toOption.any fun parsed => !parsed.hasErrors &&
        decide parsed.document.HasFiniteNumbers &&
        ((Validator.validate { schema } parsed.document).toOption.any
          fun result => result.findings.isEmpty) &&
        !(ofDocument schema parsed.document none).operations.isEmpty) = true := by
  decide +kernel

/-- At the root of the operation and below it the plan has the keys that are collected, and under
each of them the name and the arguments of all fields. -/
theorem planned_agrees_with_collected :
    ∃ parsed name planned, Document.parse request = .ok parsed ∧
      (name, planned) ∈ (ofDocument schema parsed.document none).operations ∧
      ∃ definition ∈ parsed.document.operations, ∃ object,
        (∀ bindings, Level { schema, document := parsed.document, lines? := none } bindings
          definition object (· = definition.selections) planned.children) ∧
        ∀ {bindings : Variables} {object : SchemaType} {sets : SelectionSet → Prop}
          {children : PlanChildren},
          Level { schema, document := parsed.document, lines? := none } bindings definition object
              sets children →
            (∀ key, (∃ node, (key, node) ∈ children ∧ node.isIncluded bindings = true) ↔
              ∃ head selections, (∃ set, sets set ∧
                Collects schema parsed.document bindings object set.items head selections) ∧
                  head.responseKey = key) ∧
            ∀ key node, (key, node) ∈ children → ∀ head selections, (∃ set, sets set ∧
              Collects schema parsed.document bindings object set.items head selections) →
                head.responseKey = key →
                  node.name = head.name.text ∧ ∀ name,
                    OrderedMap.find? node.arguments name = head.planArguments.find? name := by
  rcases evaluation with ⟨accepted, conforming, reads⟩
  rcases exists_ok_of_any reads with ⟨parsed, parses, reads⟩
  simp only [Bool.and_eq_true, Bool.not_eq_true', decide_eq_true_eq] at reads
  rcases reads with ⟨⟨⟨quiet, finite⟩, passes⟩, present⟩
  rcases exists_ok_of_any passes with ⟨result, validated, silent⟩
  have numbered := Document.parse_hasDistinctNumbers parses
  have named := Document.hasTokenNames_of_parse parses quiet
  cases operations : (ofDocument schema parsed.document none).operations with
  | nil =>
      rw [operations] at present
      cases present
  | cons entry rest =>
      have member : entry ∈ (ofDocument schema parsed.document none).operations :=
        operations ▸ List.mem_cons_self
      rcases included_children_eq_collected (eq_ok_of_toBool accepted {}) conforming numbered named
        finite validated (List.isEmpty_iff.mp silent) member with
        ⟨definition, inDocument, made, agrees⟩
      rcases Option.bind_eq_some_iff.mp made with ⟨object, starts, _⟩
      exact ⟨parsed, entry.1, entry.2, parses, operations ▸ member, definition, inDocument, object,
        fun _ => .root made starts, agrees⟩

end OneNumber

end Plan
end GraphQL

import GraphQL.Proofs.Validation.Independence

/-!
# The limit on nodes

The nodes of a document are its operations and fragments and all selections written in them. A walk
meets every node once, as it goes through fragments where they are defined and not where they are
spread. So a limit ends the validations of exactly the documents that have more nodes, and all other
documents get the result that they get without a limit.
-/

namespace GraphQL

/-! ## Counting nodes -/

mutual

/-- How many selections are written in a selection, itself included. -/
def Selection.nodeCount : Selection → Nat
  | .field _ none => 1
  | .field _ (some selections) => selections.nodeCount + 1
  | .inlineFragment _ selections => selections.nodeCount + 1
  | .spread _ => 1

def SelectionSet.nodeCount : SelectionSet → Nat
  | ⟨_, items, _⟩ => Selection.nodeCounts items

def Selection.nodeCounts : List Selection → Nat
  | [] => 0
  | selection :: rest => selection.nodeCount + Selection.nodeCounts rest

end

/-- An operation or a fragment with the selections in it; no other definition is a node. -/
def Definition.nodeCount : Definition → Nat
  | .operation definition => definition.selections.nodeCount + 1
  | .fragment definition => definition.selections.nodeCount + 1
  | _ => 0

def Definition.nodeCounts : List Definition → Nat
  | [] => 0
  | definition :: rest => definition.nodeCount + Definition.nodeCounts rest

/-- How many operations, fragments and selections are written in a document. -/
def Document.nodeCount (document : Document) : Nat :=
  Definition.nodeCounts document.definitions

namespace Event

theorem countP_ofDirectives (location : DirectiveLocation) (directives : List Directive) :
    (ofDirectives location directives).countP isNode = 0 := by
  rw [List.countP_eq_zero]
  intro event member
  rcases List.mem_map.mp member with ⟨directive, _, rfl⟩
  exact Bool.false_ne_true

/-- A node and its directives count once. -/
theorem countP_node {event : Event} (counts : event.isNode = true) (location : DirectiveLocation)
    (directives : List Directive) (inside : List Event) :
    (event :: ofDirectives location directives ++ inside).countP isNode =
      inside.countP isNode + 1 := by
  rw [List.cons_append, List.countP_cons_of_pos counts, List.countP_append, countP_ofDirectives,
    Nat.zero_add]

variable (schema : Schema)

mutual

theorem countP_ofSelection (type : Option SchemaType) :
    ∀ selection : Selection, (ofSelection schema type selection).countP isNode = selection.nodeCount
  | .field head none => by
      simp only [ofSelection, Selection.nodeCount]
      exact countP_node rfl _ _ []
  | .field head (some selections) => by
      simp only [ofSelection, Selection.nodeCount]
      rw [countP_node rfl, countP_ofSelectionSet _ selections]
  | .spread head => by
      simp only [ofSelection, Selection.nodeCount]
      have counts : isNode (spread head) = true := rfl
      simpa using countP_node counts .fragmentSpread head.directives []
  | .inlineFragment head selections => by
      simp only [ofSelection, Selection.nodeCount]
      rw [countP_node rfl, countP_ofSelectionSet _ selections]

theorem countP_ofSelectionSet (type : Option SchemaType) : ∀ selections : SelectionSet,
    (ofSelectionSet schema type selections).countP isNode = selections.nodeCount
  | ⟨_, items, _⟩ => by
      simp only [ofSelectionSet, SelectionSet.nodeCount]
      exact countP_ofSelections type items

theorem countP_ofSelections (type : Option SchemaType) : ∀ selections : List Selection,
    (ofSelections schema type selections).countP isNode = Selection.nodeCounts selections
  | [] => rfl
  | selection :: rest => by
      simp only [ofSelections, Selection.nodeCounts, List.countP_append]
      rw [countP_ofSelection type selection, countP_ofSelections type rest]

end

theorem countP_ofDefinition (definition : Definition) :
    (ofDefinition schema definition).countP isNode = definition.nodeCount := by
  cases definition with
  | operation definition =>
      have declared : (definition.variableDefinitions.flatMap fun declared =>
          ofDirectives .variableDefinition declared.directives).countP isNode = 0 := by
        rw [List.countP_eq_zero]
        intro event member
        rcases List.mem_flatMap.mp member with ⟨declared, _, member⟩
        exact List.countP_eq_zero.mp (countP_ofDirectives _ _) event member
      simp only [ofDefinition, ofOperation, Definition.nodeCount]
      rw [List.append_assoc, countP_node rfl, List.countP_append, declared, Nat.zero_add,
        countP_ofSelectionSet]
  | fragment definition =>
      simp only [ofDefinition, ofFragment, Definition.nodeCount]
      rw [countP_node rfl, countP_ofSelectionSet]
  | schema definition => rfl
  | type definition => rfl
  | directive definition => rfl

/-- A walk meets each node of the document once. -/
theorem countP_ofDocument (document : Document) :
    (ofDocument schema document).countP isNode = document.nodeCount := by
  have each (definitions : List Definition) :
      (definitions.flatMap (ofDefinition schema)).countP isNode =
        Definition.nodeCounts definitions := by
    induction definitions with
    | nil => rfl
    | cons definition rest ih =>
        rw [List.flatMap_cons, List.countP_append, countP_ofDefinition, ih]
        rfl
  rw [ofDocument, List.countP_append, each]
  rfl

end Event

/-! ## Walking with a limit -/

/-- A limit that holds so far ends the walk if the nodes ahead are too many, and does nothing else. -/
theorem Watcher.walk_limited (context : RuleContext) {limit nodes : Nat} (within : nodes ≤ limit)
    (watchers : List Watcher) (findings : List Diagnostic) (events : List Event) :
    walk context (some limit) nodes watchers findings events =
      if limit < nodes + events.countP Event.isNode then .error ⟨limit⟩
      else walk context none nodes watchers findings events := by
  induction events generalizing nodes watchers findings with
  | nil =>
      rw [List.countP_nil, if_neg (by omega)]
      rfl
  | cons event rest ih =>
      -- The nodes met with this event, as both walks count them.
      obtain ⟨met, isMet, total⟩ : ∃ met, met = (if event.isNode then nodes + 1 else nodes) ∧
          nodes + (event :: rest).countP Event.isNode = met + rest.countP Event.isNode := by
        refine ⟨_, rfl, ?_⟩
        rw [List.countP_cons]
        split <;> omega
      simp only [walk, ← isMet, total, Option.filter_some, Option.filter_none, decide_eq_true_eq]
      by_cases tooMany : limit < met
      · rw [if_pos tooMany, if_pos (by omega)]
      · rw [if_neg tooMany]
        exact ih (by omega) _ _

namespace Validator

/-- A document with more nodes than the limit has no result, and every other document has the result
that it has without a limit. -/
theorem node_limit_exact (schema : Schema) (rules : List RuleKind) (maxDepth : Option Nat)
    (document : Document) (lines? : Option LineIndex) :
    ∃ result,
      Validator.validate { schema, rules, limits := { maxDepth } } document lines? = .ok result ∧
      ∀ limit, Validator.validate { schema, rules, limits := { maxNodes := some limit, maxDepth } }
          document lines? =
        if limit < document.nodeCount then .error ⟨limit⟩ else .ok result := by
  rcases exists_validate_eq { schema, rules, limits := { maxDepth } } rfl document lines? with
    ⟨result, validated⟩
  refine ⟨result, validated, fun limit => ?_⟩
  simp only [validate] at validated ⊢
  rw [Watcher.walk_limited _ (Nat.zero_le limit), Event.countP_ofDocument, Nat.zero_add]
  by_cases tooMany : limit < document.nodeCount
  · rw [if_pos tooMany, if_pos tooMany]
  · rw [if_neg tooMany, if_neg tooMany, ← validated]
    rfl

end Validator

end GraphQL

import GraphQL.Proofs.Execution.Conformance
import GraphQL.Proofs.Plan.Agreement

/-!
# Nothing is left out of a plan

Collecting the fields for an object type passes over a field that the type does not define, over a
spread without a fragment and over a spread of a fragment that was entered before. The schema need
not give an object the fields of its interfaces, and where it does not a selected field is passed
over without a finding. In a conforming schema none of this happens to an accepted document, at no
level of an operation.

What makes it so is that the walk over the document meets everything from which fields are collected,
on a type that covers the object type, and that all fragments entered on the way lead to what is
spread there.
-/

namespace GraphQL

open Merging

namespace Plan

/-- While an operation is planned, fields are collected for an object type from some selections,
after some fragments have been entered. -/
inductive CollectsFrom (sources : Sources) (definition : OperationDefinition) :
    SchemaType → List String → List Selection → Prop where
  | root {object : SchemaType} (starts : sources.schema.rootType? definition.kind = some object) :
      CollectsFrom sources definition object [] definition.selections.items
  | child {outer object : SchemaType} {found : List Appearance} {key : String}
      {first : Appearance} {others : List Appearance} {appearance : Appearance}
      {selections : SelectionSet} (level : Found sources definition outer found)
      (grouped : (key, first :: others) ∈ groupAppearances found)
      (possible : object ∈ sources.childTypes first.definition)
      (member : appearance ∈ first :: others) (selects : appearance.selections = some selections) :
      CollectsFrom sources definition object appearance.fragments selections.items
  | inlineFragment {object : SchemaType} {entered : List String} {items : List Selection}
      {head : InlineFragment} {selections : SelectionSet}
      (outer : CollectsFrom sources definition object entered items)
      (member : .inlineFragment head selections ∈ items)
      (applies : sources.schema.conditionApplies (head.typeCondition.map Name.text) object = true) :
      CollectsFrom sources definition object entered selections.items
  | spread {object : SchemaType} {entered : List String} {items : List Selection}
      {head : FragmentSpread} {fragment : FragmentDefinition}
      (outer : CollectsFrom sources definition object entered items)
      (member : .spread head ∈ items)
      (defined : sources.document.fragment? head.name.text = some fragment)
      (fresh : head.name.text ∉ entered)
      (applies : sources.schema.conditionApplies (some fragment.typeCondition.text) object = true) :
      CollectsFrom sources definition object (entered ++ [head.name.text])
        fragment.selections.items

/-- A field is selected for an object type: it stands in the selections themselves or in fragments
that apply, and all conditions on the way to it hold. -/
inductive Selects (schema : Schema) (document : Document) (bindings : Variables)
    (object : SchemaType) : List Selection → FieldSelection → Option SelectionSet → Prop where
  | field {items : List Selection} {head : FieldSelection} {selections : Option SelectionSet}
      (member : .field head selections ∈ items)
      (counts : (Selection.field head selections).counts bindings = true) :
      Selects schema document bindings object items head selections
  | inlineFragment {items : List Selection} {fragment : InlineFragment} {inner : SelectionSet}
      {head : FieldSelection} {selections : Option SelectionSet}
      (member : .inlineFragment fragment inner ∈ items)
      (counts : (Selection.inlineFragment fragment inner).counts bindings = true)
      (applies : schema.conditionApplies (fragment.typeCondition.map Name.text) object = true)
      (inside : Selects schema document bindings object inner.items head selections) :
      Selects schema document bindings object items head selections
  | spread {items : List Selection} {spread : FragmentSpread} {fragment : FragmentDefinition}
      {head : FieldSelection} {selections : Option SelectionSet}
      (member : .spread spread ∈ items) (counts : (Selection.spread spread).counts bindings = true)
      (defined : document.fragment? spread.name.text = some fragment)
      (applies : schema.conditionApplies (some fragment.typeCondition.text) object = true)
      (inside : Selects schema document bindings object fragment.selections.items head
        selections) :
      Selects schema document bindings object items head selections

/-- What is collected is selected. -/
theorem Selects.of_collects {schema : Schema} {document : Document} {bindings : Variables}
    {object : SchemaType} {items : List Selection} {head : FieldSelection}
    {selections : Option SelectionSet}
    (collects : Collects schema document bindings object items head selections) :
    Selects schema document bindings object items head selections := by
  induction collects with
  | field member counts _ => exact .field member counts
  | inlineFragment member counts applies _ ih => exact .inlineFragment member counts applies ih
  | spread member counts defined applies _ ih => exact .spread member counts defined applies ih

variable {sources : Sources} {definition : OperationDefinition}

/-! ## What is met -/

/-- The walk meets selections on a type that covers the object type for which fields are collected
from them, and the fragments that have been entered lead to all that is spread in them. -/
structure IsMetFor (context : RuleContext) (object : SchemaType) (entered : List String)
    (items : List Selection) : Prop where
  objectKnown : context.schema.type? object.name = some object
  isObject : object.isObject = true
  met : ∃ type, context.schema.type? type.name = some type ∧ type.Covers context.schema object ∧
    Visits context type items
  below : IsBelow context.document entered items

section

variable {context : RuleContext} {object : SchemaType} {entered : List String}
  {items : List Selection}

theorem IsMetFor.inlineFragment (wellFormed : context.schema.IsWellFormed)
    (isMet : IsMetFor context object entered items) {head : InlineFragment}
    {selections : SelectionSet} (member : .inlineFragment head selections ∈ items)
    (applies : context.schema.conditionApplies (head.typeCondition.map Name.text) object = true) :
    IsMetFor context object entered selections.items := by
  rcases isMet with ⟨objectKnown, isObject, ⟨type, known, covers, visits⟩, below⟩
  refine ⟨objectKnown, isObject, ?_, below.inlineFragment member⟩
  cases condition : head.typeCondition with
  | none => exact ⟨type, known, covers, visits.inlineFragment member (by rw [condition]; rfl)⟩
  | some name =>
      rw [condition] at applies
      rcases Schema.covers_of_conditionApplies wellFormed applies with
        ⟨inner, found, innerKnown, innerCovers⟩
      exact ⟨inner, innerKnown, innerCovers,
        visits.inlineFragment member (by rw [condition]; exact found)⟩

theorem IsMetFor.spread (wellFormed : context.schema.IsWellFormed)
    (isMet : IsMetFor context object entered items) {head : FragmentSpread}
    {fragment : FragmentDefinition} (member : .spread head ∈ items)
    (defined : context.document.fragment? head.name.text = some fragment)
    (applies : context.schema.conditionApplies (some fragment.typeCondition.text) object = true) :
    IsMetFor context object (entered ++ [head.name.text]) fragment.selections.items := by
  rcases Schema.covers_of_conditionApplies wellFormed applies with
    ⟨inner, found, innerKnown, innerCovers⟩
  exact ⟨isMet.objectKnown, isMet.isObject,
    ⟨inner, innerKnown, innerCovers, (Opens.ofFragment (fragment?_mem defined) found).visits⟩,
    isMet.below.spread member defined⟩

/-- A field that is met is defined on the object type. -/
theorem IsMetFor.field_defined (wellFormed : context.schema.IsWellFormed)
    (conforming : context.schema.IsConforming) (valid : context.document.IsValid context.schema)
    (isMet : IsMetFor context object entered items) {head : FieldSelection}
    {selections : Option SelectionSet} (member : .field head selections ∈ items) :
    ∃ field, context.schema.field? object.name head.name.text = some field := by
  rcases isMet with ⟨objectKnown, isObject, ⟨type, known, covers, visits⟩, _⟩
  rcases (visits.isMet member).defined valid (covers.isComposite objectKnown isObject known) with
    ⟨stated, defined⟩
  rcases conforming.field_of_covers wellFormed known objectKnown isObject covers defined with
    ⟨own, ownDefined, _⟩
  exact ⟨own, ownDefined⟩

/-- A fragment that is spread where it is met is defined, and it has not been entered. -/
theorem IsMetFor.spread_fresh (valid : context.document.IsValid context.schema)
    (isMet : IsMetFor context object entered items) {head : FragmentSpread}
    (member : .spread head ∈ items) :
    (∃ fragment, context.document.fragment? head.name.text = some fragment) ∧
      head.name.text ∉ entered := by
  rcases isMet with ⟨_, _, ⟨type, _, _, visits⟩, below⟩
  constructor
  · have met := visits _ (ofSelection_subset member List.mem_cons_self)
    have silent := Rule.ofEvent_silent (valid .fragmentsAreDefined (by decide)) met
    cases defined : RuleContext.fragment? ⟨context.schema, context.document⟩ head.name.text with
    | some fragment => exact ⟨fragment, defined⟩
    | none => simp [defined] at silent
  · intro before
    exact valid.not_leads_self _ (below _ before _ (Selection.mem_listSpreads_of_spread member))

end

section

variable (wellFormed : sources.schema.IsWellFormed) (conforming : sources.schema.IsConforming)
  (numbered : sources.document.HasDistinctNumbers)
  (valid : sources.document.IsValid sources.schema)
  (inDocument : definition ∈ sources.document.operations)

include wellFormed conforming numbered valid inDocument

/-- Fields are collected only from what the walk meets. -/
theorem CollectsFrom.isMetFor {object : SchemaType} {entered : List String}
    {items : List Selection} (collects : CollectsFrom sources definition object entered items) :
    IsMetFor ⟨sources.schema, sources.document⟩ object entered items := by
  induction collects with
  | root starts =>
      rcases rootType?_eq_some starts with ⟨found, isObject⟩
      rcases Option.bind_eq_some_iff.mp found with ⟨name, _, known⟩
      have rootKnown := wellFormed.type?_name known
      refine ⟨rootKnown, isObject,
        ⟨_, rootKnown, .inl rfl, (Opens.ofOperation inDocument found).visits⟩, ?_⟩
      intro name nameMem
      cases nameMem
  | @child outer object found key first others appearance selections level grouped possible member
      selects =>
      have isGroup := level.isGroup inDocument grouped
      rcases isGroup.object_known wellFormed with ⟨outerKnown, outerIsObject⟩
      have mergeable := isGroup.mergeable wellFormed conforming numbered valid first
        List.mem_cons_self appearance member
      rw [mergeable.definition_eq] at possible
      rcases exists_possible_of_mem_childTypes wellFormed possible with
        ⟨name, possible, objectKnown⟩
      rcases mergeable with ⟨_, record, _, isOf, _, met, _⟩
      rcases isOf.returnType_covers wellFormed conforming valid met outerKnown outerIsObject possible
        objectKnown with ⟨type, returns, known, covers⟩
      have opens := met.opens returns selections (isOf.selections.trans selects)
      exact ⟨wellFormed.type?_name objectKnown, wellFormed.isObject_of_possible possible objectKnown,
        ⟨type, known, covers, opens.visits⟩, level.isBelow (mem_of_grouped grouped member).1 selects⟩
  | inlineFragment _ member applies ih => exact ih.inlineFragment wellFormed member applies
  | spread _ member defined _ applies ih => exact ih.spread wellFormed member defined applies

/-- What is selected where fields are collected is collected. -/
theorem CollectsFrom.collects_of_selects {bindings : Variables} {object : SchemaType}
    {items : List Selection} {head : FieldSelection} {selections : Option SelectionSet}
    (selected : Selects sources.schema sources.document bindings object items head selections)
    {entered : List String} (collects : CollectsFrom sources definition object entered items) :
    Collects sources.schema sources.document bindings object items head selections := by
  induction selected generalizing entered with
  | field member counts =>
      have isMet := collects.isMetFor wellFormed conforming numbered valid inDocument
      rcases isMet.field_defined wellFormed conforming valid member with ⟨field, defined⟩
      exact .field member counts (by simp [defined])
  | inlineFragment member counts applies _ ih =>
      exact .inlineFragment member counts applies (ih (collects.inlineFragment member applies))
  | spread member counts defined applies _ ih =>
      have isMet := collects.isMetFor wellFormed conforming numbered valid inDocument
      have fresh := (isMet.spread_fresh valid member).2
      exact .spread member counts defined applies (ih (collects.spread member defined fresh applies))

end

/-! ## Levels of a plan -/

/-- The selections of a level are among those from which fields are collected. -/
theorem Level.exists_collectsFrom (wellFormed : sources.schema.IsWellFormed)
    (acyclic : ∀ name, ¬sources.document.Leads name name)
    (inDocument : definition ∈ sources.document.operations) {bindings : Variables}
    {object : SchemaType} {sets : SelectionSet → Prop} {children : PlanChildren}
    (level : Level sources bindings definition object sets children) {set : SelectionSet}
    (inSets : sets set) : ∃ entered, CollectsFrom sources definition object entered set.items := by
  cases level with
  | root made starts =>
      subst inSets
      exact ⟨[], .root starts⟩
  | child outer member typed known =>
      rcases outer.exists_found wellFormed acyclic inDocument with
        ⟨depth, found, isFound, comprises, rfl⟩
      rcases exists_group_of_typedChildren wellFormed member typed known with
        ⟨inner, first, others, rfl, grouped, possible, rfl⟩
      rcases inSets with ⟨outerSet, outerIn, head, collected, sameKey⟩
      rcases (comprises.collects head (some set)).mpr ⟨outerSet, outerIn, collected⟩ with
        ⟨appearance, appearanceFound, _, rfl, selects⟩
      have inGroup : appearance ∈ first :: others := by
        rw [(mem_groupAppearances_iff.mp grouped).1]
        exact List.mem_filter.mpr ⟨appearanceFound, decide_eq_true sameKey⟩
      exact ⟨_, .child isFound grouped possible inGroup selects⟩

/-- What is selected at a level has an included node there, which stands for it. -/
theorem Level.exists_included (wellFormed : sources.schema.IsWellFormed)
    (conforming : sources.schema.IsConforming) (numbered : sources.document.HasDistinctNumbers)
    (valid : sources.document.IsValid sources.schema)
    (inDocument : definition ∈ sources.document.operations) {bindings : Variables}
    {object : SchemaType} {sets : SelectionSet → Prop} {children : PlanChildren}
    (level : Level sources bindings definition object sets children) {set : SelectionSet}
    (inSets : sets set) {head : FieldSelection} {selections : Option SelectionSet}
    (selected : Selects sources.schema sources.document bindings object set.items head selections) :
    ∃ node ∈ children.included bindings, node.responseKey = head.responseKey ∧
      head.span ∈ node.spans := by
  have acyclic := valid.not_leads_self
  rcases level.exists_collectsFrom wellFormed acyclic inDocument inSets with ⟨entered, collectsFrom⟩
  have collected := collectsFrom.collects_of_selects wellFormed conforming numbered valid inDocument
    selected
  rcases level.exists_comprises wellFormed acyclic inDocument with ⟨depth, found, comprises, rfl⟩
  rcases comprises.exists_node ⟨set, inSets, collected⟩ with ⟨node, member, included, stands⟩
  refine ⟨node, ?_, ?_, stands⟩
  · exact List.mem_map.mpr ⟨_, List.mem_filter.mpr ⟨member, included⟩, rfl⟩
  · rcases mem_nodesWithin member with ⟨_, _, _, _, _, rfl⟩
    rfl

/-- Planning an operation that validation accepts over a conforming schema passes over nothing: all
fields from which it collects are defined, and all spreads are entered where they apply. So what is
selected at any level has an included node, and a key in the objects that are completed there and in
the data of a response. -/
theorem leaves_nothing_out {source : String} {schema : Schema} {document : Document}
    {limits : ValidationLimits} {lines? : Option LineIndex} {result : ValidationResult}
    (accepted : Schema.ofSource source = .ok schema) (conforming : schema.IsConforming)
    (numbered : document.HasDistinctNumbers)
    (validated : Validator.validate { schema, rules := RuleKind.all, limits } document lines? =
      .ok result)
    (valid : result.findings = []) {definition : OperationDefinition}
    (inDocument : definition ∈ document.operations) :
    (∀ {object : SchemaType} {entered : List String} {items : List Selection},
      CollectsFrom { schema, document, lines? } definition object entered items →
        (∀ head selections, .field head selections ∈ items →
          ∃ field, schema.field? object.name head.name.text = some field) ∧
        ∀ head, .spread head ∈ items →
          (∃ fragment, document.fragment? head.name.text = some fragment) ∧
            head.name.text ∉ entered) ∧
    (∀ {bindings : Variables} {object : SchemaType} {sets : SelectionSet → Prop}
      {children : PlanChildren},
      Level { schema, document, lines? } bindings definition object sets children →
        ∀ set, sets set → ∀ head selections,
          Selects schema document bindings object set.items head selections →
            (∃ node ∈ children.included bindings, node.responseKey = head.responseKey ∧
              head.span ∈ node.spans) ∧
            ∀ {σ Object : Type} {env : Environment σ Object}, env.bindings = bindings →
              ∀ {parent : ResolvedValue Object} {path : ResponsePath} {before : Progress σ Object}
                {fields : List (String × Bool × ResponseTree)},
                (env.executeFields children parent path before).1 = some fields →
                  head.responseKey ∈ OrderedMap.keys fields) ∧
    ∀ {host : Host} {executor : Executor host}, executor.schema = schema →
      executor.accessors.IsTyped → ∀ {request : Request host} {operation : PlanOperation}
        {bindings : Variables},
        executor.prepare (ofDocument schema document lines?) request.operation request.bindings =
          .ok (operation, bindings) →
        Sources.operation? { schema, document, lines? } definition = some operation →
        ∀ session fields,
          (executor.execute (ofDocument schema document lines?) request session).1.data =
            some (.object fields) →
          ∀ object, schema.rootType? definition.kind = some object → ∀ head selections,
            Selects schema document bindings object definition.selections.items head selections →
              head.responseKey ∈ OrderedMap.keys fields := by
  have wellFormed := Schema.ofSource_isWellFormed accepted
  have isValid := Validator.isValid_of_validate rfl validated valid
  refine ⟨?_, ?_, ?_⟩
  · intro object entered items collects
    have isMet := collects.isMetFor wellFormed conforming numbered isValid inDocument
    exact ⟨fun head selections => isMet.field_defined wellFormed conforming isValid,
      fun head => isMet.spread_fresh isValid⟩
  · intro bindings object sets children level set inSets head selections selected
    rcases level.exists_included wellFormed conforming numbered isValid inDocument inSets selected
      with ⟨node, included, sameKey, stands⟩
    refine ⟨⟨node, included, sameKey, stands⟩, ?_⟩
    rintro σ Object env rfl parent path before fields made
    rw [ResponseTree.keys_of_heads (executeFields_some_heads made), ← sameKey]
    exact List.mem_map_of_mem included
  · rintro host executor rfl typed request operation bindings prepared made session fields data object
      starts head selections selected
    rcases Level.exists_included wellFormed conforming numbered isValid inDocument
      (.root made starts) rfl selected with ⟨node, included, sameKey, _⟩
    rcases executor.execute_conforms typed accepted prepared session with ⟨executed, _, conforms⟩
    rw [executed] at data
    rcases conforms with isNull | ⟨shown, isObject, keys, _⟩
    · simp [Response.ofData, isNull] at data
    · simp only [Response.ofData, isObject, Option.some.injEq, Json.object.injEq] at data
      rw [← data, keys, ← sameKey]
      exact List.mem_map_of_mem included

namespace OneFragment

def source : String :=
  "interface A { a: A } type B implements A { a: B } type Query { a: A }"

def schema : Schema :=
  (Schema.ofSource source).toOption.getD {}

/-- The fragment is spread at two levels, at one of them inside an inline fragment. -/
def document : Document :=
  ((Document.parse
      ("{ a { ...F ... on B { b: a { ...F } } } } fragment F on A { a { __typename } }")).toOption.map
    (·.document)).getD ⟨[], ⟨0, 0⟩⟩

def plan : Plan :=
  ofDocument schema document none

def executor : Executor LazyFields.host :=
  LazyFields.executor schema

def data : Json :=
  let inner := Json.object [("__typename", .string "B")]
  .object [("a", .object [("__typename", .string "B"), ("a", inner)])]

def request : Request LazyFields.host where
  root := .ofJson data

/-- Some field is collected for the root that has selections, the plan has a level for them with two
keys, and an object is completed there. -/
def isEvaluated (operation : PlanOperation) (bindings : Variables)
    (definition : OperationDefinition) : Bool :=
  (schema.rootType? definition.kind).any fun root =>
    (appearances schema document root [] [] definition.selections).any fun outer =>
      outer.isIncluded bindings && outer.selections.any fun set =>
        operation.children.any fun (key, node) => key == outer.field.responseKey &&
          node.typedChildren.any fun (typeName, inner) =>
            (schema.type? typeName).any fun object =>
              (["a", "b"].all fun key => (appearances schema document object [] [] set).any
                fun found => found.isIncluded bindings && found.field.responseKey == key) &&
              ((executor.environment bindings []).executeFields inner (.ofJson data) []
                { outside := LazyFields.session }).1.isSome

theorem evaluation :
    (Schema.ofSource source).toBool = true ∧ schema.IsConforming ∧ document.HasDistinctNumbers ∧
      ((Validator.validate { schema } document).toOption.any
        fun result => result.findings.isEmpty) = true ∧
      ((executor.prepare plan none []).toOption.any fun (operation, bindings) =>
        document.operations.all (isEvaluated operation bindings)) = true ∧
      (executor.execute plan request LazyFields.session).1.data.any (fun
        | .object fields => OrderedMap.keys fields == ["a"]
        | _ => false) = true := by
  decide +kernel

/-- The fields of the root are defined. So are the fields and spreads at the level below it, where
what is selected has nodes and the object that is completed has its keys, as the data have. -/
theorem selections_defined :
    ∃ operation bindings, executor.prepare plan request.operation request.bindings =
        .ok (operation, bindings) ∧
      ∃ definition ∈ document.operations, ∃ root, schema.rootType? definition.kind = some root ∧
        (∀ head selections, .field head selections ∈ definition.selections.items →
          ∃ field, schema.field? root.name head.name.text = some field) ∧
        (∃ object sets inner set,
          Level { schema, document, lines? := none } bindings definition object sets inner ∧
          sets set ∧
          (∃ entered,
            CollectsFrom { schema, document, lines? := none } definition object entered set.items ∧
            (∀ head selections, .field head selections ∈ set.items →
              ∃ field, schema.field? object.name head.name.text = some field) ∧
            ∀ head, .spread head ∈ set.items →
              (∃ fragment, document.fragment? head.name.text = some fragment) ∧
                head.name.text ∉ entered) ∧
          (∀ key ∈ ["a", "b"], ∃ head selections,
            Selects schema document bindings object set.items head selections ∧
              head.responseKey = key ∧
              ∃ node ∈ inner.included bindings, node.responseKey = key ∧ head.span ∈ node.spans) ∧
          ∃ fields, ((executor.environment bindings []).executeFields inner (.ofJson data) []
              { outside := LazyFields.session }).1 = some fields ∧
            ∀ key ∈ ["a", "b"], key ∈ OrderedMap.keys fields) ∧
        ∃ fields,
          (executor.execute plan request LazyFields.session).1.data = some (.object fields) ∧
          ∃ head selections,
            Selects schema document bindings root definition.selections.items head selections ∧
              head.responseKey ∈ OrderedMap.keys fields := by
  rcases evaluation with ⟨accepted, conforming, numbered, passes, prepares, executed⟩
  rcases exists_ok_of_any passes with ⟨result, validated, silent⟩
  rcases exists_ok_of_any prepares with ⟨⟨operation, bindings⟩, prepared, evaluated⟩
  have prepared : executor.prepare plan request.operation request.bindings =
      .ok (operation, bindings) := prepared
  rcases Executor.exists_mem_of_prepare prepared with ⟨name, member⟩
  rcases exists_operation_of_mem_ofDocument member with ⟨definition, inDocument, made⟩
  have accepts := eq_ok_of_toBool accepted {}
  have silent := List.isEmpty_iff.mp silent
  have complete := leaves_nothing_out accepts conforming numbered validated silent inDocument
  have found := List.all_eq_true.mp evaluated definition inDocument
  rcases (Option.any_eq_true _ _).mp found with ⟨root, starts, found⟩
  rcases List.any_eq_true.mp found with ⟨outer, outerMem, found⟩
  rcases Bool.and_eq_true_iff.mp found with ⟨included, found⟩
  rcases (Option.any_eq_true _ _).mp found with ⟨set, selects, found⟩
  rcases List.any_eq_true.mp found with ⟨⟨key, node⟩, nodeMem, found⟩
  rcases Bool.and_eq_true_iff.mp found with ⟨sameKey, found⟩
  rcases List.any_eq_true.mp found with ⟨⟨typeName, inner⟩, typed, found⟩
  rcases (Option.any_eq_true _ _).mp found with ⟨object, known, found⟩
  rcases Bool.and_eq_true_iff.mp found with ⟨keys, completed⟩
  have collected := ((mem_appearances_iff.mp outerMem).collects included).2
  rw [selects] at collected
  have top : Level { schema, document, lines? := none } bindings definition root
      (· = definition.selections) operation.children := .root made starts
  have level := top.child nodeMem typed known
  have inSets : ∃ other, other = definition.selections ∧ ∃ head,
      Collects schema document bindings root other.items head (some set) ∧ head.responseKey = key :=
    ⟨_, rfl, outer.field, collected, (eq_of_beq sameKey).symm⟩
  rcases level.exists_collectsFrom (Schema.ofSource_isWellFormed accepts)
    (Validator.isValid_of_validate rfl validated silent).not_leads_self inDocument inSets with
    ⟨entered, collectsFrom⟩
  have below := complete.2.1 level set inSets
  have selected : ∀ key ∈ ["a", "b"], ∃ head selections,
      Selects schema document bindings object set.items head selections ∧
        head.responseKey = key := by
    intro key listed
    rcases List.any_eq_true.mp (List.all_eq_true.mp keys key listed) with ⟨one, oneMem, both⟩
    rcases Bool.and_eq_true_iff.mp both with ⟨included, sameKey⟩
    exact ⟨_, _, .of_collects ((mem_appearances_iff.mp oneMem).collects included).2,
      eq_of_beq sameKey⟩
  rcases Option.isSome_iff_exists.mp completed with ⟨fields, completed⟩
  refine ⟨operation, bindings, prepared, definition, inDocument, root, starts,
    (complete.1 (.root starts)).1, ⟨object, _, inner, set, level, inSets,
      ⟨entered, collectsFrom, complete.1 collectsFrom⟩, ?_, fields, completed, ?_⟩, ?_⟩
  · intro key listed
    rcases selected key listed with ⟨head, selections, selected, rfl⟩
    exact ⟨head, selections, selected, rfl, (below head selections selected).1⟩
  · intro key listed
    rcases selected key listed with ⟨head, selections, selected, rfl⟩
    exact (below head selections selected).2 rfl completed
  · rcases (Option.any_eq_true _ _).mp executed with ⟨shown, data, isObject⟩
    cases shown with
    | object fields =>
        have keyed := complete.2.2 rfl (LazyFields.isTyped schema) prepared made LazyFields.session
          fields data root starts
        exact ⟨fields, data, outer.field, _, .of_collects collected,
          keyed outer.field _ (.of_collects collected)⟩
    | _ => cases isObject

end OneFragment

namespace MissingField

def source : String :=
  "interface I { f: Int } type O implements I { g: Int } type Query { i: I }"

/-- The object type does not have the field of its interface. -/
def schema : Schema :=
  (Schema.ofSource source).toOption.getD {}

def document : Document :=
  ((Document.parse "{ i { f } }").toOption.map (·.document)).getD ⟨[], ⟨0, 0⟩⟩

def request : Request LazyFields.host where
  root := .ofJson (.object [("i", .object [("__typename", .string "O"), ("f", .int 1)])])

theorem evaluation :
    (Schema.ofSource source).toBool = true ∧ document.HasDistinctNumbers ∧
      ((Validator.validate { schema } document).toOption.any
        fun result => result.findings.isEmpty) = true ∧
      document.operations.any (fun definition =>
        (schema.rootType? definition.kind).any fun root =>
          (groupAppearances (appearances schema document root [] [] definition.selections)).any
            fun
              | (_, first :: _) =>
                  (Sources.childTypes { schema, document, lines? := none } first.definition).any
                    fun object => first.selections.any fun selections => selections.items.any
                      fun
                        | .field head _ => (schema.field? object.name head.name.text).isNone
                        | _ => false
              | _ => false) = true ∧
      ((LazyFields.executor schema).execute (ofDocument schema document none) request
        LazyFields.session).1.data.any (· == .object [("i", .object [])]) = true := by
  decide +kernel

/-- Without the field in the object type its selection is passed over, and the data lack it, though
the schema is accepted and validation finds nothing. -/
theorem passed_over :
    Schema.ofSource source = .ok schema ∧ document.HasDistinctNumbers ∧
      (∃ result, Validator.validate { schema } document = .ok result ∧ result.findings = []) ∧
      (∃ definition ∈ document.operations, ∃ object entered items head selections,
        CollectsFrom { schema, document, lines? := none } definition object entered items ∧
          .field head selections ∈ items ∧ schema.field? object.name head.name.text = none) ∧
      ((LazyFields.executor schema).execute (ofDocument schema document none) request
        LazyFields.session).1.data.any (· == .object [("i", .object [])]) = true := by
  rcases evaluation with ⟨accepted, numbered, passes, present, data⟩
  rcases exists_ok_of_any passes with ⟨result, validated, silent⟩
  refine ⟨eq_ok_of_toBool accepted {}, numbered, ⟨result, validated, List.isEmpty_iff.mp silent⟩, ?_,
    data⟩
  rcases List.any_eq_true.mp present with ⟨definition, inDocument, present⟩
  rcases (Option.any_eq_true _ _).mp present with ⟨root, starts, present⟩
  rcases List.any_eq_true.mp present with ⟨⟨key, group⟩, grouped, present⟩
  rcases group with _ | ⟨first, others⟩
  · cases present
  rcases List.any_eq_true.mp present with ⟨object, possible, present⟩
  rcases (Option.any_eq_true _ _).mp present with ⟨selections, selects, present⟩
  rcases List.any_eq_true.mp present with ⟨selection, member, present⟩
  cases selection with
  | field head inner =>
      exact ⟨definition, inDocument, object, _, _, head, inner,
        .child (.root starts) grouped possible List.mem_cons_self selects, member,
        Option.isNone_iff_eq_none.mp present⟩
  | spread head => cases present
  | inlineFragment head inner => cases present

end MissingField

end Plan
end GraphQL

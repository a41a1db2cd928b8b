import GraphQL.Proofs.Plan.Groups
import GraphQL.Proofs.Validation.Termination

/-!
# Variables of a plan

The walk for variables follows every spread once in an operation, while a plan goes through a
fragment again for every object type and every appearance of its spread. What the walk has met is
closed: the selections of every fragment that was followed are covered by the names that were met. So
every variable that is mentioned below the selections of an operation is met, however often a plan
comes by, and a plan has no variable that is not mentioned there.
-/

namespace GraphQL

/-! ## Mentioned variables -/

/-- A variable is mentioned in some selections: in an argument or a directive there, or in what is
nested or spread there. -/
inductive Mentions (document : Document) (name : String) : List Selection → Prop where
  | directive {items : List Selection} {selection : Selection} (member : selection ∈ items)
      (used : name ∈ (directiveVariables selection.directives).map Name.text) :
      Mentions document name items
  | argument {items : List Selection} {head : FieldSelection} {selections : Option SelectionSet}
      (member : .field head selections ∈ items)
      (used : name ∈ (argumentVariables head.arguments).map Name.text) :
      Mentions document name items
  | field {items : List Selection} {head : FieldSelection} {selections : SelectionSet}
      (member : .field head (some selections) ∈ items)
      (inside : Mentions document name selections.items) : Mentions document name items
  | inlineFragment {items : List Selection} {head : InlineFragment} {selections : SelectionSet}
      (member : .inlineFragment head selections ∈ items)
      (inside : Mentions document name selections.items) : Mentions document name items
  | spread {items : List Selection} {head : FragmentSpread} {fragment : FragmentDefinition}
      (member : .spread head ∈ items)
      (defined : document.fragment? head.name.text = some fragment)
      (inside : Mentions document name fragment.selections.items) : Mentions document name items

namespace VariableUse

variable {document : Document}

/-- The walk has met the variables of a selection and of all that is nested in it, and has followed
the spreads there. -/
inductive Covers (use : VariableUse) : Selection → Prop where
  | field {head : FieldSelection} {selections : Option SelectionSet}
      (directed : directiveVariables head.directives ⊆ use.names)
      (argued : argumentVariables head.arguments ⊆ use.names)
      (inside : ∀ inner, selections = some inner → ∀ selection ∈ inner.items,
        Covers use selection) : Covers use (.field head selections)
  | inlineFragment {head : InlineFragment} {selections : SelectionSet}
      (directed : directiveVariables head.directives ⊆ use.names)
      (inside : ∀ selection ∈ selections.items, Covers use selection) :
      Covers use (.inlineFragment head selections)
  | spread {head : FragmentSpread} (directed : directiveVariables head.directives ⊆ use.names)
      (followed : head.name.text ∈ use.followed) : Covers use (.spread head)

/-- Everything that the first walk has met, the second has met as well. -/
structure Extends (after use : VariableUse) : Prop where
  names : use.names ⊆ after.names
  followed : use.followed ⊆ after.followed

theorem Extends.refl (use : VariableUse) : use.Extends use :=
  ⟨List.Subset.refl _, List.Subset.refl _⟩

theorem Extends.trans {use between after : VariableUse} (further : after.Extends between)
    (first : between.Extends use) : after.Extends use :=
  ⟨List.Subset.trans first.names further.names, List.Subset.trans first.followed further.followed⟩

theorem extends_add (use : VariableUse) (names : List Name) : (use.add names).Extends use :=
  ⟨List.subset_append_left _ _, List.Subset.refl _⟩

theorem Extends.added {use after : VariableUse} {names : List Name}
    (extends_ : after.Extends (use.add names)) : names ⊆ after.names :=
  List.Subset.trans (List.subset_append_right _ _) extends_.names

theorem Covers.mono {use after : VariableUse} {selection : Selection} (covers : use.Covers selection)
    (extends_ : after.Extends use) : after.Covers selection := by
  induction covers with
  | field directed argued inside ih =>
      exact .field (List.Subset.trans directed extends_.names)
        (List.Subset.trans argued extends_.names) ih
  | inlineFragment directed inside ih =>
      exact .inlineFragment (List.Subset.trans directed extends_.names) ih
  | spread directed followed =>
      exact .spread (List.Subset.trans directed extends_.names) (extends_.followed followed)

/-- Every fragment that the walk has followed is covered, apart from those followed before. -/
def IsClosedSince (document : Document) (use after : VariableUse) : Prop :=
  ∀ name ∈ after.followed, name ∉ use.followed → ∀ fragment,
    document.fragment? name = some fragment →
      ∀ selection ∈ fragment.selections.items, after.Covers selection

theorem IsClosedSince.trans {use between after : VariableUse}
    (first : IsClosedSince document use between) (further : IsClosedSince document between after)
    (extends_ : after.Extends between) : IsClosedSince document use after := by
  intro name followed fresh fragment defined selection member
  by_cases known : name ∈ between.followed
  · exact (first name known fresh fragment defined selection member).mono extends_
  · exact further name followed known fragment defined selection member

end VariableUse

open VariableUse

/-- What a walk through some selections comes to: they are covered, and so is what it followed. -/
structure Uses.Meets (document : Document) (use : VariableUse) (items : List Selection)
    (after : VariableUse) : Prop where
  grows : after.Extends use
  covers : ∀ selection ∈ items, after.Covers selection
  closed : IsClosedSince document use after

section

variable {document : Document}

/-- The walk goes through one more selection, which it covers, and then through the others. -/
theorem Uses.Meets.cons {use between after : VariableUse} {first : Selection}
    {rest : List Selection} (others : Uses.Meets document between rest after)
    (grows : between.Extends use) (covers : after.Covers first)
    (closed : IsClosedSince document use between) : Uses.Meets document use (first :: rest) after where
  grows := others.grows.trans grows
  covers := List.forall_mem_cons.mpr ⟨covers, others.covers⟩
  closed := closed.trans others.closed others.grows

theorem Uses.meets {use after : VariableUse} {items : List Selection}
    (uses : Uses document use items after) : Uses.Meets document use items after := by
  induction uses with
  | nil => exact ⟨.refl _, nofun, fun name followed fresh => absurd followed fresh⟩
  | field others ih =>
      rcases List.append_subset.mp ih.grows.added with ⟨directed, argued⟩
      exact ih.cons (extends_add _ _) (.field directed argued nofun)
        fun name followed fresh => absurd followed fresh
  | fieldWith inside others insideMeets othersMeet =>
      have grows := othersMeet.grows.trans insideMeets.grows
      rcases List.append_subset.mp grows.added with ⟨directed, argued⟩
      refine othersMeet.cons (insideMeets.grows.trans (extends_add _ _)) (.field directed argued ?_)
        insideMeets.closed
      rintro _ ⟨⟩ selection member
      exact (insideMeets.covers selection member).mono othersMeet.grows
  | inlineFragment inside others insideMeets othersMeet =>
      have grows := othersMeet.grows.trans insideMeets.grows
      refine othersMeet.cons (insideMeets.grows.trans (extends_add _ _))
        (.inlineFragment grows.added ?_) insideMeets.closed
      exact fun selection member => (insideMeets.covers selection member).mono othersMeet.grows
  | spreadAgain followed others ih =>
      exact ih.cons (extends_add _ _) (.spread ih.grows.added (ih.grows.followed followed))
        fun name followed fresh => absurd followed fresh
  | @spreadOfNone use after head rest fresh undefined others ih =>
      have keeps : (VariableUse.keep (use.add (directiveVariables head.directives))
          head.name.text).Extends (use.add (directiveVariables head.directives)) :=
        ⟨List.Subset.refl _, List.subset_cons_self _ _⟩
      have grows := ih.grows.trans keeps
      refine ih.cons (keeps.trans (extends_add _ _))
        (.spread grows.added (ih.grows.followed List.mem_cons_self)) ?_
      intro name followed isFresh fragment defined
      rcases List.mem_cons.mp followed with rfl | known
      · rw [undefined] at defined
        cases defined
      · exact absurd known isFresh
  | @spread use between after head fragment rest fresh defined inside others insideMeets othersMeet =>
      have keeps : (VariableUse.keep (use.add (directiveVariables head.directives))
          head.name.text).Extends (use.add (directiveVariables head.directives)) :=
        ⟨List.Subset.refl _, List.subset_cons_self _ _⟩
      have enters := insideMeets.grows.trans (extends_add _ _)
      have grows := othersMeet.grows.trans (enters.trans keeps)
      refine othersMeet.cons (enters.trans (keeps.trans (extends_add _ _)))
        (.spread grows.added (othersMeet.grows.followed (enters.followed List.mem_cons_self))) ?_
      intro name followed isFresh other found selection member
      by_cases same : name = head.name.text
      · subst same
        obtain rfl : fragment = other := Option.some.inj (defined.symm.trans found)
        exact insideMeets.covers selection member
      · refine insideMeets.closed name followed (fun known => ?_) other found selection member
        exact (List.mem_cons.mp known).elim same isFresh

/-- A walk that covers some selections and all that it followed has met what is mentioned there. -/
theorem Mentions.mem_names {name : String} {items : List Selection}
    (mentions : Mentions document name items) {use : VariableUse}
    (covers : ∀ selection ∈ items, use.Covers selection)
    (closed : ∀ followed ∈ use.followed, ∀ fragment, document.fragment? followed = some fragment →
      ∀ selection ∈ fragment.selections.items, use.Covers selection) :
    name ∈ use.names.map Name.text := by
  induction mentions with
  | @directive items selection member used =>
      have directed : directiveVariables selection.directives ⊆ use.names := by
        cases covers selection member with
        | field directed argued inside => exact directed
        | inlineFragment directed inside => exact directed
        | spread directed followed => exact directed
      exact List.map_subset _ directed used
  | argument member used =>
      cases covers _ member with
      | field directed argued inside => exact List.map_subset _ argued used
  | field member inside ih =>
      cases covers _ member with
      | field directed argued inside => exact ih (inside _ rfl)
  | inlineFragment member inside ih =>
      cases covers _ member with
      | inlineFragment directed inside => exact ih inside
  | spread member defined inside ih =>
      cases covers _ member with
      | spread directed followed => exact ih (closed _ followed _ defined)

/-- The walk of an operation meets every variable that is mentioned below it. -/
theorem Mentions.mem_ofOperation {name : String} {operation : OperationDefinition}
    (mentions : Mentions document name operation.selections.items) :
    name ∈ (VariableUse.ofOperation document operation).map Name.text := by
  rcases exists_uses_ofOperation document operation with ⟨use, uses, names⟩
  have meets := uses.meets
  rw [← names]
  exact mentions.mem_names meets.covers fun followed known => meets.closed followed known nofun

end

/-! ## Declared variables -/

theorem mem_declared_of_undeclaredNames {declared reported : List String} {names : List Name}
    (silent : undeclaredNames declared reported names = []) {name : Name} (member : name ∈ names) :
    name.text ∈ declared ∨ name.text ∈ reported := by
  induction names generalizing reported with
  | nil => cases member
  | cons first rest ih =>
      simp only [undeclaredNames] at silent
      split at silent
      · rename_i known
        rcases List.mem_cons.mp member with rfl | member
        · simpa using known
        · exact ih silent member
      · cases silent

/-- Where the rule on variables finds nothing, every operation declares what is mentioned in it. -/
theorem mem_declared_of_mentions {schema : Schema} {document : Document}
    (silent : (Rule.variablesAreDefined.findings ⟨schema, document⟩
      (Event.ofDocument schema document)).flatten = [])
    {operation : OperationDefinition} (member : operation ∈ document.operations) {name : String}
    (mentions : Mentions document name operation.selections.items) :
    name ∈ operation.variableDefinitions.map (·.name.text) := by
  rcases List.mem_filterMap.mp member with ⟨definition, inDocument, isOperation⟩
  have met : Event.operation operation ((schema.rootTypeName? operation.kind).bind schema.type?) ∈
      Event.ofDocument schema document := by
    refine List.mem_append_left _ (List.mem_flatMap.mpr ⟨definition, inDocument, ?_⟩)
    cases definition with
    | operation definition =>
        cases isOperation
        exact List.mem_cons_self
    | _ => cases isOperation
  have none := Rule.ofEvent_silent silent met
  simp only [List.map_eq_nil_iff] at none
  rcases List.mem_map.mp mentions.mem_ofOperation with ⟨used, usedMember, rfl⟩
  exact (mem_declared_of_undeclaredNames none usedMember).resolve_right List.not_mem_nil

/-! ## Values and conditions of a plan -/

namespace PlanValue

theorem mem_fieldVariables_iff {name : String} {fields : List (String × PlanValue)} :
    name ∈ fieldVariables fields ↔ ∃ field ∈ fields, name ∈ field.2.variableNames := by
  induction fields with
  | nil => simp [fieldVariables]
  | cons field rest ih => simp [fieldVariables, ih]

mutual

theorem variableNames_ofLiteral_subset :
    ∀ literal : Literal,
      (ofLiteral literal).variableNames ⊆ literal.variableNames.map Name.text
  | .var name => by simp [ofLiteral, variableNames, Literal.variableNames]
  | .list items _ => by
      simp only [ofLiteral, variableNames, Literal.variableNames]
      exact itemVariables_ofLiterals_subset items
  | .object fields _ => by
      simp only [ofLiteral, variableNames, Literal.variableNames]
      intro name used
      rcases mem_fieldVariables_iff.mp used with ⟨field, member, used⟩
      exact fieldVariables_ofLiterals_subset fields
        (mem_fieldVariables_iff.mpr ⟨field, OrderedMap.mem_of_mem_ofPairs member, used⟩)
  | .int .. | .float .. | .string .. | .boolean .. | .null _ | .enum _ => by
      simp [ofLiteral, variableNames]

theorem itemVariables_ofLiterals_subset :
    ∀ items : List Literal,
      itemVariables (itemsOfLiterals items) ⊆ (Literal.itemVariables items).map Name.text
  | [] => List.nil_subset _
  | item :: rest => by
      simp only [itemsOfLiterals, itemVariables, Literal.itemVariables, List.map_append]
      exact List.append_subset.mpr
        ⟨List.subset_append_of_subset_left _ (variableNames_ofLiteral_subset item),
          List.subset_append_of_subset_right _ (itemVariables_ofLiterals_subset rest)⟩

theorem fieldVariables_ofLiterals_subset :
    ∀ fields : List (Name × Literal),
      fieldVariables (fieldsOfLiterals fields) ⊆ (Literal.fieldVariables fields).map Name.text
  | [] => List.nil_subset _
  | (name, value) :: rest => by
      simp only [fieldsOfLiterals, fieldVariables, Literal.fieldVariables, List.map_append]
      exact List.append_subset.mpr
        ⟨List.subset_append_of_subset_left _ (variableNames_ofLiteral_subset value),
          List.subset_append_of_subset_right _ (fieldVariables_ofLiterals_subset rest)⟩

end

end PlanValue

theorem mem_argumentVariables {arguments : List Argument} {argument : Argument}
    (member : argument ∈ arguments) {name : String}
    (used : name ∈ (PlanValue.ofLiteral argument.value).variableNames) :
    name ∈ (argumentVariables arguments).map Name.text := by
  have inArgument := PlanValue.variableNames_ofLiteral_subset argument.value used
  refine List.map_subset _ (fun name used => ?_) inArgument
  exact List.mem_flatMap.mpr ⟨argument, member, used⟩

theorem Directive.exists_argument_of_condition? {directive : Directive} {condition : PlanCondition}
    (decides : directive.condition? = some condition) :
    ∃ argument ∈ directive.arguments, condition.value = .ofLiteral argument.value := by
  have ofArgument {kind : ConditionKind}
      (decides : ((directive.arguments.find? (·.name.text == "if")).bind fun argument =>
        some { kind, value := PlanValue.ofLiteral argument.value }) = some condition) :
      ∃ argument ∈ directive.arguments, condition.value = .ofLiteral argument.value := by
    rcases Option.bind_eq_some_iff.mp decides with ⟨argument, found, ⟨⟩⟩
    exact ⟨argument, List.mem_of_find?_eq_some found, rfl⟩
  unfold Directive.condition? at decides
  split at decides
  · exact ofArgument decides
  · split at decides
    · exact ofArgument decides
    · cases decides

/-- The variables of a condition stand in its directive. -/
theorem mem_directiveVariables_of_condition {directives : List Directive}
    {condition : PlanCondition} (member : condition ∈ directives.filterMap Directive.condition?)
    {name : String} (used : name ∈ condition.value.variableNames) :
    name ∈ (directiveVariables directives).map Name.text := by
  rcases List.mem_filterMap.mp member with ⟨directive, inDirectives, decides⟩
  rcases Directive.exists_argument_of_condition? decides with ⟨argument, isGiven, value⟩
  have inDirective := mem_argumentVariables isGiven (value ▸ used)
  refine List.map_subset _ (fun name used => ?_) inDirective
  exact List.mem_flatMap.mpr ⟨directive, inDirectives, used⟩

/-! ## Appearances -/

/-- Every variable at an appearance or below it is allowed. -/
structure Appearance.Keeps (document : Document) (allowed : String → Prop)
    (appearance : Appearance) : Prop where
  conditions : ∀ condition ∈ appearance.conditions, ∀ name ∈ condition.value.variableNames,
    allowed name
  arguments : ∀ name ∈ (argumentVariables appearance.field.arguments).map Name.text, allowed name
  inside : ∀ selections, appearance.selections = some selections →
    ∀ name, Mentions document name selections.items → allowed name

section

variable {schema : Schema} {document : Document} {object : SchemaType} {allowed : String → Prop}

theorem Selection.conditions_allowed {items : List Selection} {selection : Selection}
    {inherited : List PlanCondition} (member : selection ∈ items)
    (above : ∀ condition ∈ inherited, ∀ name ∈ condition.value.variableNames, allowed name)
    (mentioned : ∀ name, Mentions document name items → allowed name) :
    ∀ condition ∈ selection.conditions inherited, ∀ name ∈ condition.value.variableNames,
      allowed name := by
  intro condition isCondition name used
  rcases List.mem_append.mp isCondition with isAbove | isOwn
  · exact above condition isAbove name used
  · exact mentioned name (.directive member (mem_directiveVariables_of_condition isOwn used))

/-- The variables of an appearance are mentioned in the selections or stand in what is inherited. -/
theorem Appears.keeps {inherited : List PlanCondition} {entered : List String}
    {items : List Selection} {appearance : Appearance}
    (appears : Appears schema document object inherited entered items appearance)
    (above : ∀ condition ∈ inherited, ∀ name ∈ condition.value.variableNames, allowed name)
    (mentioned : ∀ name, Mentions document name items → allowed name) :
    appearance.Keeps document allowed := by
  induction appears with
  | field member defined =>
      refine ⟨Selection.conditions_allowed member above mentioned,
        fun name used => mentioned name (.argument member used), ?_⟩
      rintro selections ⟨⟩ name inside
      exact mentioned name (.field member inside)
  | inlineFragment member applies inside ih =>
      exact ih (Selection.conditions_allowed member above mentioned)
        fun name below => mentioned name (.inlineFragment member below)
  | spread member defined fresh applies inside ih =>
      exact ih (Selection.conditions_allowed member above mentioned)
        fun name below => mentioned name (.spread member defined below)

end

/-! ## Nodes -/

/-- A variable stands in an argument of the node, or in a condition of one of its appearances. -/
def PlanNode.HasVariable (node : PlanNode) (name : String) : Prop :=
  (∃ argument ∈ node.arguments, name ∈ argument.2.variableNames) ∨
    ∃ conditions ∈ node.conditions, ∃ condition ∈ conditions,
      name ∈ condition.value.variableNames

/-- A node is among some children, or below one of them at any depth. -/
inductive PlanChildren.Holds (node : PlanNode) : PlanChildren → Prop where
  | child {children : PlanChildren} {key : String} (member : (key, node) ∈ children) :
      Holds node children
  | deeper {children inner : PlanChildren} {key typeName : String} {outer : PlanNode}
      (member : (key, outer) ∈ children) (typed : (typeName, inner) ∈ outer.typedChildren)
      (inside : Holds node inner) : Holds node children

namespace Plan

variable {sources : Sources} {allowed : String → Prop}

theorem keeps_innerAppearances {outer : List Appearance}
    (keep : ∀ appearance ∈ outer, appearance.Keeps sources.document allowed) (object : SchemaType) :
    ∀ appearance ∈ sources.innerAppearances object outer,
      appearance.Keeps sources.document allowed := by
  intro appearance member
  rcases mem_innerAppearances_iff.mp member with ⟨parent, isParent, selections, selects, appears⟩
  exact appears.keeps (keep parent isParent).conditions
    ((keep parent isParent).inside selections selects)

theorem allowed_of_hasVariable {children : SchemaType → List Appearance → PlanChildren}
    {object : SchemaType} {key name : String} {first : Appearance} {others : List Appearance}
    (keep : ∀ appearance ∈ first :: others, appearance.Keeps sources.document allowed)
    (used : (sources.node children object key first others).HasVariable name) : allowed name := by
  rcases used with ⟨argument, isArgument, used⟩ | ⟨conditions, isOne, condition, member, used⟩
  · rcases List.mem_map.mp (OrderedMap.mem_of_mem_ofPairs isArgument) with ⟨given, isGiven, rfl⟩
    exact (keep first List.mem_cons_self).arguments name (mem_argumentVariables isGiven used)
  · rcases List.mem_map.mp isOne with ⟨appearance, isAppearance, rfl⟩
    exact (keep appearance isAppearance).conditions condition member name used

/-- The variables of all nodes that are built of some appearances are those of the appearances. -/
theorem allowed_of_holds {node : PlanNode} {depth : Nat} {object : SchemaType}
    {found : List Appearance}
    (keep : ∀ appearance ∈ found, appearance.Keeps sources.document allowed)
    (holds : (sources.nodesWithin depth object found).Holds node) {name : String}
    (used : node.HasVariable name) : allowed name := by
  induction depth generalizing object found with
  | zero =>
      cases holds with
      | child member => cases member
      | deeper member typed inside => cases member
  | succ depth ih =>
      have grouped {key : String} {first : Appearance} {others : List Appearance}
          (grouped : (key, first :: others) ∈ groupAppearances found) :
          ∀ appearance ∈ first :: others, appearance.Keeps sources.document allowed :=
        fun appearance member => keep appearance (mem_of_grouped grouped member).1
      cases holds with
      | child member =>
          rcases mem_nodesWithin member with ⟨inner, first, others, _, isGroup, rfl⟩
          exact allowed_of_hasVariable (grouped isGroup) used
      | deeper member typed inside =>
          rcases mem_nodesWithin member with ⟨inner, first, others, same, isGroup, rfl⟩
          obtain rfl : depth = inner := Nat.succ.inj same
          rcases mem_typedChildren_node typed with ⟨type, _, same⟩
          cases same
          exact ih (keeps_innerAppearances (grouped isGroup) type) inside

end Plan

/-! ## Operations -/

/-- A variable occurs in the tree of an operation. -/
def PlanOperation.HasVariable (operation : PlanOperation) (name : String) : Prop :=
  ∃ node, operation.children.Holds node ∧ node.HasVariable name

/-- If the rule on variables looks at a document and nothing is found, every variable that occurs in
the plan of an operation is declared by the operation. -/
theorem Validator.variables_declared {validator : Validator} {document : Document}
    {lines? : Option LineIndex} {result : ValidationResult}
    (watched : .variablesAreDefined ∈ validator.rules)
    (validated : validator.validate document lines? = .ok result) (valid : result.findings = []) :
    ∃ plan, result.plan? = some plan ∧ ∀ key operation, (key, operation) ∈ plan.operations →
      ∀ name, operation.HasVariable name →
        name ∈ operation.variableDefinitions.map PlanVariable.name := by
  have silent := findings_eq_nil_of_validate watched validated valid
  refine ⟨_, plan?_of_validate validated valid, fun key operation member name occurs => ?_⟩
  rcases Plan.exists_operation_of_mem_ofDocument member with ⟨definition, inDocument, made⟩
  rcases Option.bind_eq_some_iff.mp made with ⟨root, _, made⟩
  simp only [Option.pure_def, Option.some.injEq] at made
  subst made
  have declared (name : String) (mentions : Mentions document name definition.selections.items) :
      name ∈ (definition.variableDefinitions.map Plan.Sources.declaredVariable).map
        PlanVariable.name := by
    rw [List.map_map]
    exact mem_declared_of_mentions silent inDocument mentions
  rcases occurs with ⟨node, holds, used⟩
  refine Plan.allowed_of_holds (fun appearance member => ?_) holds used
  exact (mem_appearances_iff.mp member).keeps nofun declared

namespace SpreadVariables

def schema : Schema :=
  (Schema.ofSource "type Query { a(n: Int): Query b: Int }").toOption.getD {}

/-- A fragment is spread twice, and a variable stands in the fragment that is spread there. -/
def document : Document :=
  ((Document.parse
      ("query Q($n: Int, $c: Boolean) { ...F @skip(if: $c) ...F } "
        ++ "fragment F on Query { a(n: $n) { ...G } } "
        ++ "fragment G on Query { b @include(if: $c) }")).toOption.map
    (·.document)).getD ⟨[], ⟨0, 0⟩⟩

/-- A variable stands in a condition at the second level of an operation. -/
def hasInnerCondition (operation : PlanOperation) (name : String) : Bool :=
  operation.children.any fun (_, outer) => outer.typedChildren.any fun (_, inner) =>
    inner.any fun (_, node) => node.conditions.any fun conditions =>
      conditions.any fun condition => condition.value.variableNames.contains name

theorem hasVariable_of_hasInnerCondition {operation : PlanOperation} {name : String}
    (has : hasInnerCondition operation name = true) : operation.HasVariable name := by
  rcases List.any_eq_true.mp has with ⟨⟨key, outer⟩, isOuter, has⟩
  rcases List.any_eq_true.mp has with ⟨⟨typeName, inner⟩, isTyped, has⟩
  rcases List.any_eq_true.mp has with ⟨⟨innerKey, node⟩, isInner, has⟩
  rcases List.any_eq_true.mp has with ⟨conditions, isOne, has⟩
  rcases List.any_eq_true.mp has with ⟨condition, isCondition, has⟩
  exact ⟨node, .deeper isOuter isTyped (.child isInner),
    .inr ⟨conditions, isOne, condition, isCondition, List.contains_iff_mem.mp has⟩⟩

theorem evaluation :
    ((Validator.validate { schema } document).toOption.any
        fun result => result.findings.isEmpty) = true ∧
      (Plan.ofDocument schema document none).operations.any
        (fun (_, operation) => hasInnerCondition operation "c") = true := by
  decide +kernel

theorem declared_across_spreads :
    ∃ entry ∈ (Plan.ofDocument schema document none).operations, entry.2.HasVariable "c" ∧
      "c" ∈ entry.2.variableDefinitions.map PlanVariable.name := by
  rcases exists_ok_of_any evaluation.1 with ⟨result, validated, silent⟩
  have watched : RuleKind.variablesAreDefined ∈ RuleKind.all := by decide
  rcases Validator.variables_declared watched validated (List.isEmpty_iff.mp silent) with
    ⟨plan, isPlan, declared⟩
  have same := Validator.plan?_of_validate validated (List.isEmpty_iff.mp silent)
  obtain rfl := Option.some.inj (isPlan.symm.trans same)
  rcases List.any_eq_true.mp evaluation.2 with ⟨⟨key, operation⟩, member, has⟩
  have occurs := hasVariable_of_hasInnerCondition has
  exact ⟨_, member, occurs, declared key operation member "c" occurs⟩

end SpreadVariables

end GraphQL

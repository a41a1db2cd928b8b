import GraphQL.Proofs.Plan.Levels

/-!
# Plans of any document

A plan is built before a rule has seen the document, so the fragments of the document may spread
themselves or one another in any way. The relations here follow the recursion of collecting and of
building with nothing to bound it: a derivation of `Gathers` or `Builds` is a recursion that has come
to its end. Every document has such derivations, and what they end with is what the bounded
definitions compute.

Two measures carry this. Entering a fragment takes it out of those that can still be entered, on the
way through fields as well, since an appearance keeps the fragments entered before it. Going into
the fields of an appearance makes the weight of appearances smaller.
-/

namespace GraphQL

/-- Collecting fields for an object type, entering fragments as often as they are met. -/
inductive Gathers (schema : Schema) (document : Document) (object : SchemaType) :
    List PlanCondition → List String → List Selection → List Appearance → Prop where
  | nil {inherited : List PlanCondition} {entered : List String} :
      Gathers schema document object inherited entered [] []
  | field {inherited : List PlanCondition} {entered : List String} {head : FieldSelection}
      {selections : Option SelectionSet} {rest : List Selection} {found : List Appearance}
      {definition : OutputField}
      (defined : schema.field? object.name head.name.text = some definition)
      (others : Gathers schema document object inherited entered rest found) :
      Gathers schema document object inherited entered (.field head selections :: rest)
        ({ field := head, selections, definition
           conditions := (Selection.field head selections).conditions inherited
           fragments := entered } :: found)
  | unknownField {inherited : List PlanCondition} {entered : List String} {head : FieldSelection}
      {selections : Option SelectionSet} {rest : List Selection} {found : List Appearance}
      (unknown : schema.field? object.name head.name.text = none)
      (others : Gathers schema document object inherited entered rest found) :
      Gathers schema document object inherited entered (.field head selections :: rest) found
  | inlineFragment {inherited : List PlanCondition} {entered : List String} {head : InlineFragment}
      {selections : SelectionSet} {rest : List Selection} {inner found : List Appearance}
      (applies : schema.conditionApplies (head.typeCondition.map Name.text) object = true)
      (inside : Gathers schema document object
        ((Selection.inlineFragment head selections).conditions inherited) entered selections.items
        inner)
      (others : Gathers schema document object inherited entered rest found) :
      Gathers schema document object inherited entered (.inlineFragment head selections :: rest)
        (inner ++ found)
  | otherInlineFragment {inherited : List PlanCondition} {entered : List String}
      {head : InlineFragment} {selections : SelectionSet} {rest : List Selection}
      {found : List Appearance}
      (misses : schema.conditionApplies (head.typeCondition.map Name.text) object = false)
      (others : Gathers schema document object inherited entered rest found) :
      Gathers schema document object inherited entered (.inlineFragment head selections :: rest)
        found
  | spread {inherited : List PlanCondition} {entered : List String} {head : FragmentSpread}
      {fragment : FragmentDefinition} {rest : List Selection} {inner found : List Appearance}
      (defined : document.fragment? head.name.text = some fragment)
      (fresh : head.name.text ∉ entered)
      (applies : schema.conditionApplies (some fragment.typeCondition.text) object = true)
      (inside : Gathers schema document object ((Selection.spread head).conditions inherited)
        (entered ++ [head.name.text]) fragment.selections.items inner)
      (others : Gathers schema document object inherited entered rest found) :
      Gathers schema document object inherited entered (.spread head :: rest) (inner ++ found)
  | closedSpread {inherited : List PlanCondition} {entered : List String} {head : FragmentSpread}
      {rest : List Selection} {found : List Appearance}
      (closed : ∀ fragment, document.fragment? head.name.text = some fragment →
        head.name.text ∈ entered ∨
          schema.conditionApplies (some fragment.typeCondition.text) object = false)
      (others : Gathers schema document object inherited entered rest found) :
      Gathers schema document object inherited entered (.spread head :: rest) found

section Gathering

variable {schema : Schema} {document : Document} {object : SchemaType}

/-- Collecting goes through the selections themselves; only a spread leads elsewhere. -/
theorem gathers_itemAppearances {entered : List String}
    {enter : List PlanCondition → List String → FragmentSpread → List Appearance}
    (opens : ∀ conditions head fragment, document.fragment? head.name.text = some fragment →
      head.name.text ∉ entered →
      schema.conditionApplies (some fragment.typeCondition.text) object = true →
      Gathers schema document object conditions (entered ++ [head.name.text])
        fragment.selections.items (enter conditions entered head))
    (skips : ∀ conditions head, (∀ fragment, document.fragment? head.name.text = some fragment →
      head.name.text ∈ entered ∨
        schema.conditionApplies (some fragment.typeCondition.text) object = false) →
      enter conditions entered head = []) :
    ∀ (items : List Selection) (inherited : List PlanCondition),
      Gathers schema document object inherited entered items
        (itemAppearances schema object enter inherited entered items)
  | [], inherited => by
      simp only [itemAppearances]
      exact .nil
  | .field head selections :: rest, inherited => by
      have others := gathers_itemAppearances opens skips rest inherited
      simp only [itemAppearances, selectionAppearances]
      cases defined : schema.field? object.name head.name.text with
      | none => exact .unknownField defined others
      | some definition => exact .field defined others
  | .inlineFragment head ⟨id, inner, span⟩ :: rest, inherited => by
      have others := gathers_itemAppearances opens skips rest inherited
      simp only [itemAppearances, selectionAppearances, setAppearances]
      split
      · rename_i applies
        exact .inlineFragment applies (gathers_itemAppearances opens skips inner _) others
      · rename_i misses
        exact .otherInlineFragment (by simpa using misses) others
  | .spread head :: rest, inherited => by
      have others := gathers_itemAppearances opens skips rest inherited
      simp only [itemAppearances, selectionAppearances]
      by_cases enters : ∃ fragment, document.fragment? head.name.text = some fragment ∧
          head.name.text ∉ entered ∧
          schema.conditionApplies (some fragment.typeCondition.text) object = true
      · rcases enters with ⟨fragment, defined, fresh, applies⟩
        exact .spread defined fresh applies (opens _ _ _ defined fresh applies) others
      · have closed : ∀ fragment, document.fragment? head.name.text = some fragment →
            head.name.text ∈ entered ∨
              schema.conditionApplies (some fragment.typeCondition.text) object = false := by
          intro fragment defined
          by_contra open_
          simp only [not_or, Bool.not_eq_false] at open_
          exact enters ⟨fragment, defined, open_⟩
        have nothing := skips ((Selection.spread head).conditions inherited) head closed
        simp only [nothing, List.nil_append]
        exact .closedSpread closed others

/-- A bound that the fragments not entered yet do not exceed is never used up. -/
theorem gathers_enterWithin {bound : Nat} {entered : List String}
    (enough : document.remaining (fun _ => 1) entered ≤ bound) (items : List Selection)
    (inherited : List PlanCondition) :
    Gathers schema document object inherited entered items
      (itemAppearances schema object (enterWithin schema document object bound) inherited entered
        items) := by
  induction bound generalizing entered items inherited with
  | zero =>
      apply gathers_itemAppearances
      · intro conditions head fragment defined fresh applies
        have taken := Document.add_remaining_append_le (fun _ => 1) defined fresh
        omega
      · intro conditions head closed
        rfl
  | succ bound ih =>
      apply gathers_itemAppearances
      · intro conditions head fragment defined fresh applies
        have taken := Document.add_remaining_append_le (fun _ => 1) defined fresh
        have notEntered : entered.contains head.name.text = false := by
          simpa using fresh
        simp only [enterWithin, defined, applies, notEntered, Bool.not_true, Bool.or_false,
          Bool.false_eq_true, if_false, appearancesWithin_eq]
        apply ih
        omega
      · intro conditions head closed
        simp only [enterWithin]
        split
        · rfl
        · rename_i fragment defined
          rcases closed fragment defined with known | misses
          · simp [known]
          · simp [misses]

/-- Collecting ends, whatever has been entered before, and finds the appearances. -/
theorem gathers_appearances (inherited : List PlanCondition) (entered : List String)
    (selections : SelectionSet) :
    Gathers schema document object inherited entered selections.items
      (appearances schema document object inherited entered selections) := by
  unfold appearances
  rw [appearancesWithin_eq]
  apply gathers_enterWithin
  have all := document.remaining_le (fun _ => 1) entered
  simpa using all

end Gathering

namespace Plan

variable {sources : Sources}

/-! ## Building -/

/-- The nodes of some appearances, with the children that a function gives. -/
def Sources.nodesOf (sources : Sources) (children : SchemaType → List Appearance → PlanChildren)
    (object : SchemaType) (found : List Appearance) : PlanChildren :=
  (groupAppearances found).filterMap fun (key, group) =>
    match group with
    | [] => none
    | first :: others => some (key, sources.node children object key first others)

/-- Building nodes, with children as long as there are any. -/
inductive Builds (sources : Sources) : SchemaType → List Appearance → PlanChildren → Prop where
  | nodes {object : SchemaType} {found : List Appearance}
      {children : SchemaType → List Appearance → PlanChildren}
      (built : ∀ key first others, (key, first :: others) ∈ groupAppearances found →
        ∀ type ∈ sources.childTypes first.definition,
          Builds sources type (sources.innerAppearances type (first :: others))
            (children type (sources.innerAppearances type (first :: others)))) :
      Builds sources object found (sources.nodesOf children object found)

/-- A depth that no appearance outweighs cuts nothing off. -/
theorem builds_nodesWithin {depth : Nat} {object : SchemaType} {found : List Appearance}
    (light : ∀ appearance ∈ found, appearance.weight sources.document ≤ depth) :
    Builds sources object found (sources.nodesWithin depth object found) := by
  induction depth generalizing object found with
  | zero =>
      have nothing : found = [] := by
        apply List.eq_nil_iff_forall_not_mem.mpr
        intro appearance member
        have positive := appearance.weight_pos sources.document
        have weight := light appearance member
        omega
      subst nothing
      refine @Builds.nodes sources object [] (fun _ _ => []) ?_
      intro key first others grouped
      cases grouped
  | succ depth ih =>
      refine @Builds.nodes sources object found (sources.nodesWithin depth) ?_
      intro key first others grouped type possible
      apply ih
      intro appearance inner
      rcases mem_innerAppearances_iff.mp inner with
        ⟨outer, outerMem, selections, selects, appears⟩
      have lighter := appears.weight_lt selects
      have outerLight := light outer (mem_of_grouped grouped outerMem).1
      omega

theorem builds_operation {definition : OperationDefinition}
    (member : definition ∈ sources.document.operations) (object : SchemaType) :
    Builds sources object
      (appearances sources.schema sources.document object [] [] definition.selections)
      (sources.children object [] definition.selections) := by
  apply builds_nodesWithin
  intro appearance found
  have weight := (mem_appearances_iff.mp found).weight_le
  rw [← SelectionSet.height_eq] at weight
  exact weight.trans (Document.height_le_nesting member)

theorem builds_fragment {definition : FragmentDefinition}
    (member : definition ∈ sources.document.fragments) (object : SchemaType) :
    Builds sources object
      (appearances sources.schema sources.document object [] [definition.name.text]
        definition.selections)
      (sources.children object [definition.name.text] definition.selections) := by
  apply builds_nodesWithin
  intro appearance found
  have weight := (mem_appearances_iff.mp found).weight_le
  rw [← SelectionSet.height_eq] at weight
  exact weight.trans (Document.height_fragment_le_nesting member)

/-! ## Chains of nested collecting -/

/-- The selections that fields are collected from while a plan is built, with the fragments entered
on the way to them: through inline fragments, through spreads and through the fields found. -/
inductive Nests (sources : Sources) :
    SchemaType → List PlanCondition → List String → SelectionSet → Prop where
  | operation {object : SchemaType} {definition : OperationDefinition}
      (member : definition ∈ sources.document.operations) :
      Nests sources object [] [] definition.selections
  | fragment {object : SchemaType} {definition : FragmentDefinition}
      (member : definition ∈ sources.document.fragments) :
      Nests sources object [] [definition.name.text] definition.selections
  | inlineFragment {object : SchemaType} {inherited : List PlanCondition} {entered : List String}
      {outer selections : SelectionSet} {head : InlineFragment}
      (nests : Nests sources object inherited entered outer)
      (member : .inlineFragment head selections ∈ outer.items) :
      Nests sources object ((Selection.inlineFragment head selections).conditions inherited) entered
        selections
  | spread {object : SchemaType} {inherited : List PlanCondition} {entered : List String}
      {outer : SelectionSet} {head : FragmentSpread} {fragment : FragmentDefinition}
      (nests : Nests sources object inherited entered outer) (member : .spread head ∈ outer.items)
      (defined : sources.document.fragment? head.name.text = some fragment)
      (fresh : entered.contains head.name.text = false) :
      Nests sources object ((Selection.spread head).conditions inherited)
        (entered ++ [head.name.text]) fragment.selections
  | field {object inner : SchemaType} {inherited : List PlanCondition} {entered : List String}
      {outer selections : SelectionSet} {appearance : Appearance}
      (nests : Nests sources object inherited entered outer)
      (found : appearance ∈
        appearances sources.schema sources.document object inherited entered outer)
      (selects : appearance.selections = some selections) :
      Nests sources inner appearance.conditions appearance.fragments selections

/-- The fragments entered on one way, each of them once and known to the document. -/
structure EntersOnceEach (document : Document) (entered : List String) : Prop where
  nodup : entered.Nodup
  defined : ∀ name ∈ entered, ∃ fragment ∈ document.fragments, fragment.name.text = name

theorem EntersOnceEach.enter {document : Document} {entered : List String}
    (once : EntersOnceEach document entered) {name : String} {fragment : FragmentDefinition}
    (defined : document.fragment? name = some fragment) (fresh : name ∉ entered) :
    EntersOnceEach document (entered ++ [name]) where
  nodup := by
    rw [List.nodup_append]
    refine ⟨once.nodup, List.nodup_singleton _, ?_⟩
    intro earlier earlierMem other otherMem same
    rw [List.mem_singleton] at otherMem
    subst other same
    exact fresh earlierMem
  defined := by
    intro other otherMem
    rcases List.mem_append.mp otherMem with otherMem | otherMem
    · exact once.defined other otherMem
    · rw [List.mem_singleton] at otherMem
      subst other
      exact ⟨fragment, Document.fragment?_name defined⟩

/-- An appearance keeps all that was entered before, and what was entered since is new. -/
theorem EntersOnceEach.appears {schema : Schema} {document : Document} {object : SchemaType}
    {inherited : List PlanCondition} {entered : List String} {items : List Selection}
    {appearance : Appearance} (once : EntersOnceEach document entered)
    (appears : Appears schema document object inherited entered items appearance) :
    EntersOnceEach document appearance.fragments := by
  induction appears with
  | field => exact once
  | inlineFragment _ _ _ ih => exact ih once
  | spread _ defined fresh _ _ ih => exact ih (once.enter defined fresh)

/-- On no chain of nested collecting a fragment is entered twice. -/
theorem Nests.entersOnceEach {object : SchemaType} {inherited : List PlanCondition}
    {entered : List String} {selections : SelectionSet}
    (nests : Nests sources object inherited entered selections) :
    EntersOnceEach sources.document entered := by
  induction nests with
  | operation => exact ⟨List.nodup_nil, fun _ member => by cases member⟩
  | @fragment object definition member =>
      refine ⟨List.nodup_singleton _, ?_⟩
      intro name nameMem
      rw [List.mem_singleton] at nameMem
      exact ⟨definition, member, nameMem.symm⟩
  | inlineFragment _ _ ih => exact ih
  | spread _ _ defined fresh ih => exact ih.enter defined (by simpa using fresh)
  | field _ found _ ih => exact ih.appears (mem_appearances_iff.mp found)

end Plan

end GraphQL

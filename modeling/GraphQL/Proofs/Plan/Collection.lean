import GraphQL.Proofs.Plan.Appearance
import GraphQL.Proofs.Walk

/-!
# Direct collection

Fields can also be collected straight from the document, for an object type and some variables: a
selection counts if its own conditions hold, and everything below one that does not count is left
out. A plan keeps the conditions instead and decides them later. As an appearance has all conditions
on the way to it, its conditions hold just when every selection on the way counts, and where no
fragment leads to itself a fragment that was entered before is never met again.
-/

namespace GraphQL

/-- The conditions on a selection itself hold. -/
def Selection.counts (bindings : Variables) (selection : Selection) : Bool :=
  (selection.directives.filterMap Directive.condition?).all (·.passes bindings)

/-- The fields collected from some selections for an object type. -/
inductive Collects (schema : Schema) (document : Document) (bindings : Variables)
    (object : SchemaType) : List Selection → FieldSelection → Option SelectionSet → Prop where
  | field {items : List Selection} {head : FieldSelection} {selections : Option SelectionSet}
      (member : .field head selections ∈ items)
      (counts : (Selection.field head selections).counts bindings = true)
      (defined : (schema.field? object.name head.name.text).isSome) :
      Collects schema document bindings object items head selections
  | inlineFragment {items : List Selection} {fragment : InlineFragment} {inner : SelectionSet}
      {head : FieldSelection} {selections : Option SelectionSet}
      (member : .inlineFragment fragment inner ∈ items)
      (counts : (Selection.inlineFragment fragment inner).counts bindings = true)
      (applies : schema.conditionApplies (fragment.typeCondition.map Name.text) object = true)
      (inside : Collects schema document bindings object inner.items head selections) :
      Collects schema document bindings object items head selections
  | spread {items : List Selection} {spread : FragmentSpread} {fragment : FragmentDefinition}
      {head : FieldSelection} {selections : Option SelectionSet}
      (member : .spread spread ∈ items) (counts : (Selection.spread spread).counts bindings = true)
      (defined : document.fragment? spread.name.text = some fragment)
      (applies : schema.conditionApplies (some fragment.typeCondition.text) object = true)
      (inside : Collects schema document bindings object fragment.selections.items head
        selections) :
      Collects schema document bindings object items head selections

/-- All conditions of an appearance hold. -/
def Appearance.isIncluded (bindings : Variables) (appearance : Appearance) : Bool :=
  appearance.conditions.all (·.passes bindings)

section

variable {schema : Schema} {document : Document} {bindings : Variables} {object : SchemaType}

theorem Selection.all_conditions (inherited : List PlanCondition) (selection : Selection) :
    (selection.conditions inherited).all (·.passes bindings) =
      (inherited.all (·.passes bindings) && selection.counts bindings) := by
  rw [Selection.conditions, List.all_append, Selection.counts]

/-- An included appearance is collected. -/
theorem Appears.collects {inherited : List PlanCondition} {entered : List String}
    {items : List Selection} {appearance : Appearance}
    (appears : Appears schema document object inherited entered items appearance)
    (included : appearance.isIncluded bindings = true) :
    inherited.all (·.passes bindings) = true ∧
      Collects schema document bindings object items appearance.field appearance.selections := by
  induction appears with
  | field member defined =>
      unfold Appearance.isIncluded at included
      rw [Selection.all_conditions, Bool.and_eq_true] at included
      exact ⟨included.1, .field member included.2 (by simp [defined])⟩
  | inlineFragment member applies inside ih =>
      rcases ih included with ⟨passes, collects⟩
      rw [Selection.all_conditions, Bool.and_eq_true] at passes
      exact ⟨passes.1, .inlineFragment member passes.2 applies collects⟩
  | spread member defined fresh applies inside ih =>
      rcases ih included with ⟨passes, collects⟩
      rw [Selection.all_conditions, Bool.and_eq_true] at passes
      exact ⟨passes.1, .spread member passes.2 defined applies collects⟩

/-- All fragments that have been entered lead to what is spread in the selections. -/
def IsBelow (document : Document) (entered : List String) (items : List Selection) : Prop :=
  ∀ name ∈ entered, ∀ other ∈ Selection.listSpreads items, document.Leads name other

theorem Selection.spreads_subset {selection : Selection} :
    ∀ {items : List Selection}, selection ∈ items →
      selection.spreads ⊆ Selection.listSpreads items
  | first :: rest, member => by
      simp only [Selection.listSpreads]
      rcases List.mem_cons.mp member with rfl | member
      · exact List.subset_append_left _ _
      · exact List.subset_append_of_subset_right _ (Selection.spreads_subset member)

theorem SelectionSet.spreads_eq (selections : SelectionSet) :
    selections.spreads = Selection.listSpreads selections.items := by
  cases selections
  simp [SelectionSet.spreads]

theorem IsBelow.inlineFragment {entered : List String} {items : List Selection}
    (below : IsBelow document entered items) {fragment : InlineFragment} {inner : SelectionSet}
    (member : .inlineFragment fragment inner ∈ items) : IsBelow document entered inner.items := by
  intro name nameMem other otherMem
  apply below name nameMem
  apply Selection.spreads_subset member
  simpa only [Selection.spreads, SelectionSet.spreads_eq] using otherMem

theorem IsBelow.spread {entered : List String} {items : List Selection}
    (below : IsBelow document entered items) {spread : FragmentSpread}
    {fragment : FragmentDefinition} (member : .spread spread ∈ items)
    (defined : document.fragment? spread.name.text = some fragment) :
    IsBelow document (entered ++ [spread.name.text]) fragment.selections.items := by
  intro name nameMem other otherMem
  have spreads : document.Spreads spread.name.text other := by
    unfold Document.Spreads
    rwa [Document.spreadsOf_eq defined, SelectionSet.spreads_eq]
  rcases List.mem_append.mp nameMem with nameMem | nameMem
  · exact .tail (below name nameMem _ (Selection.mem_listSpreads_of_spread member)) spreads
  · rw [List.mem_singleton] at nameMem
    subst name
    exact .single spreads

theorem IsBelow.field {entered : List String} {items : List Selection}
    (below : IsBelow document entered items) {head : FieldSelection} {inner : SelectionSet}
    (member : .field head (some inner) ∈ items) : IsBelow document entered inner.items := by
  intro name nameMem other otherMem
  apply below name nameMem
  apply Selection.spreads_subset member
  simpa only [Selection.spreads, SelectionSet.spreads_eq] using otherMem

/-- What has been entered on the way to an appearance is above its selections. -/
theorem Appears.isBelow {inherited : List PlanCondition} {entered : List String}
    {items : List Selection} {appearance : Appearance}
    (appears : Appears schema document object inherited entered items appearance)
    (below : IsBelow document entered items) {inner : SelectionSet}
    (selects : appearance.selections = some inner) :
    IsBelow document appearance.fragments inner.items := by
  induction appears with
  | field member defined =>
      have same : _ = some inner := selects
      subst same
      exact below.field member
  | inlineFragment member applies inside ih => exact ih (below.inlineFragment member) selects
  | spread member defined fresh applies inside ih => exact ih (below.spread member defined) selects

/-- What is collected appears, with conditions that hold. -/
theorem Collects.exists_appears (acyclic : ∀ name, ¬document.Leads name name)
    {items : List Selection} {head : FieldSelection} {selections : Option SelectionSet}
    (collects : Collects schema document bindings object items head selections)
    {inherited : List PlanCondition} (passes : inherited.all (·.passes bindings) = true)
    {entered : List String} (below : IsBelow document entered items) :
    ∃ appearance, Appears schema document object inherited entered items appearance ∧
      appearance.isIncluded bindings = true ∧ appearance.field = head ∧
      appearance.selections = selections := by
  induction collects generalizing inherited entered with
  | field member counts defined =>
      rcases Option.isSome_iff_exists.mp defined with ⟨definition, defined⟩
      refine ⟨_, .field member defined, ?_, rfl, rfl⟩
      unfold Appearance.isIncluded
      rw [Selection.all_conditions, passes, counts]
      rfl
  | inlineFragment member counts applies inside ih =>
      rcases ih (by rw [Selection.all_conditions, passes, counts]; rfl)
        (below.inlineFragment member) with ⟨appearance, appears, included⟩
      exact ⟨appearance, .inlineFragment member applies appears, included⟩
  | @spread items spread fragment head selections member counts defined applies inside ih =>
      have fresh : spread.name.text ∉ entered := by
        intro entered
        exact acyclic _ (below _ entered _ (Selection.mem_listSpreads_of_spread member))
      rcases ih (by rw [Selection.all_conditions, passes, counts]; rfl)
        (below.spread member defined) with ⟨appearance, appears, included⟩
      exact ⟨appearance, .spread member defined fresh applies appears, included⟩

end

end GraphQL

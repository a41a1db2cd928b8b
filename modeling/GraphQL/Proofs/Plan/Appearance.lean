import GraphQL.Plan.Appearance
import GraphQL.Proofs.Fragments
import GraphQL.Proofs.Merging.Expansion
import GraphQL.Proofs.Schema.Conforming

/-!
# Appearances

What is collected for an object type, said without a bound: an appearance is reached through inline
fragments and through fragments that are not entered twice. The number of fragments is a bound that
never cuts a way off.

Collecting follows the concrete object type, the expansions of the merging rule follow the types
that the document states. Whatever is collected for an object type is in the expansion on any type
that covers it, selected on a type that covers it as well.
-/

namespace GraphQL

open Merging

/-- An appearance in some selections, with the conditions and the fragments on the way to it. -/
inductive Appears (schema : Schema) (document : Document) (object : SchemaType) :
    List PlanCondition → List String → List Selection → Appearance → Prop where
  | field {inherited : List PlanCondition} {entered : List String} {items : List Selection}
      {head : FieldSelection} {selections : Option SelectionSet} {definition : OutputField}
      (member : .field head selections ∈ items)
      (defined : schema.field? object.name head.name.text = some definition) :
      Appears schema document object inherited entered items
        { field := head, selections, definition
          conditions := (Selection.field head selections).conditions inherited
          fragments := entered }
  | inlineFragment {inherited : List PlanCondition} {entered : List String}
      {items : List Selection} {head : InlineFragment} {selections : SelectionSet}
      {appearance : Appearance} (member : .inlineFragment head selections ∈ items)
      (applies : schema.conditionApplies (head.typeCondition.map Name.text) object = true)
      (inside : Appears schema document object
        ((Selection.inlineFragment head selections).conditions inherited) entered selections.items
        appearance) :
      Appears schema document object inherited entered items appearance
  | spread {inherited : List PlanCondition} {entered : List String} {items : List Selection}
      {head : FragmentSpread} {fragment : FragmentDefinition} {appearance : Appearance}
      (member : .spread head ∈ items)
      (defined : document.fragment? head.name.text = some fragment)
      (fresh : head.name.text ∉ entered)
      (applies : schema.conditionApplies (some fragment.typeCondition.text) object = true)
      (inside : Appears schema document object ((Selection.spread head).conditions inherited)
        (entered ++ [head.name.text]) fragment.selections.items appearance) :
      Appears schema document object inherited entered items appearance

theorem Appears.mono {schema : Schema} {document : Document} {object : SchemaType}
    {inherited : List PlanCondition} {entered : List String} {items more : List Selection}
    {appearance : Appearance}
    (appears : Appears schema document object inherited entered items appearance)
    (subset : items ⊆ more) : Appears schema document object inherited entered more appearance := by
  cases appears with
  | field member defined => exact .field (subset member) defined
  | inlineFragment member applies inside => exact .inlineFragment (subset member) applies inside
  | spread member defined fresh applies inside =>
      exact .spread (subset member) defined fresh applies inside

/-- An appearance has the definition that the object type gives to its field. -/
theorem Appears.defined {schema : Schema} {document : Document} {object : SchemaType}
    {inherited : List PlanCondition} {entered : List String} {items : List Selection}
    {appearance : Appearance}
    (appears : Appears schema document object inherited entered items appearance) :
    schema.field? object.name appearance.field.name.text = some appearance.definition := by
  induction appears with
  | field member defined => exact defined
  | inlineFragment member applies inside ih => exact ih
  | spread member defined fresh applies inside ih => exact ih

/-! ## The bound on entering fragments -/

section Bound

variable {schema : Schema} {document : Document} {object : SchemaType}

/-- The appearances in the fragment of a spread, when fragments are entered at most so often. -/
def enterWithin (schema : Schema) (document : Document) (object : SchemaType) :
    Nat → List PlanCondition → List String → FragmentSpread → List Appearance
  | 0, _, _, _ => []
  | bound + 1, conditions, entered, spread =>
      match document.fragment? spread.name.text with
      | none => []
      | some fragment =>
          if entered.contains spread.name.text
              || !schema.conditionApplies (some fragment.typeCondition.text) object then []
          else
            appearancesWithin schema document object bound conditions
              (entered ++ [spread.name.text]) fragment.selections

theorem appearancesWithin_eq (bound : Nat) (inherited : List PlanCondition) (entered : List String)
    (selections : SelectionSet) :
    appearancesWithin schema document object bound inherited entered selections =
      itemAppearances schema object (enterWithin schema document object bound) inherited entered
        selections.items := by
  cases selections
  cases bound <;> rfl

theorem selectionAppearances_subset
    {enter : List PlanCondition → List String → FragmentSpread → List Appearance}
    {inherited : List PlanCondition} {entered : List String} {selection : Selection} :
    ∀ {items : List Selection}, selection ∈ items →
      selectionAppearances schema object enter inherited entered selection ⊆
        itemAppearances schema object enter inherited entered items
  | first :: rest, member => by
      simp only [itemAppearances]
      rcases List.mem_cons.mp member with rfl | member
      · exact List.subset_append_left _ _
      · exact List.subset_append_of_subset_right _ (selectionAppearances_subset member)

/-- The fragments that are not entered yet bound how often a fragment can still be entered. -/
theorem Appears.mem_itemAppearances {inherited : List PlanCondition} {entered : List String}
    {items : List Selection} {appearance : Appearance}
    (appears : Appears schema document object inherited entered items appearance) {bound : Nat}
    (enough : document.remaining (fun _ => 1) entered ≤ bound) :
    appearance ∈ itemAppearances schema object (enterWithin schema document object bound) inherited
      entered items := by
  induction appears generalizing bound with
  | field member defined =>
      apply selectionAppearances_subset member
      simp [selectionAppearances, defined]
  | @inlineFragment inherited entered items head selections appearance member applies inside ih =>
      apply selectionAppearances_subset member
      rcases selections with ⟨id, inner, span⟩
      simp only [selectionAppearances, applies, if_true, setAppearances]
      exact ih enough
  | @spread inherited entered items head fragment appearance member defined fresh applies inside
      ih =>
      apply selectionAppearances_subset member
      have taken := Document.add_remaining_append_le (fun _ => 1) defined fresh
      cases bound with
      | zero => omega
      | succ bound =>
          have notEntered : entered.contains head.name.text = false := by
            simpa using fresh
          simp only [selectionAppearances, enterWithin, defined, applies, notEntered,
            Bool.not_true, Bool.or_false, Bool.false_eq_true, if_false, appearancesWithin_eq]
          exact ih (by omega)

/-- What is found at a spread appears in its fragment, which has not been entered before. -/
def EntersOnce (schema : Schema) (document : Document) (object : SchemaType)
    (enter : List PlanCondition → List String → FragmentSpread → List Appearance) : Prop :=
  ∀ conditions entered head, ∀ appearance ∈ enter conditions entered head,
    ∃ fragment, document.fragment? head.name.text = some fragment ∧ head.name.text ∉ entered ∧
      schema.conditionApplies (some fragment.typeCondition.text) object = true ∧
      Appears schema document object conditions (entered ++ [head.name.text])
        fragment.selections.items appearance

variable {enter : List PlanCondition → List String → FragmentSpread → List Appearance}

mutual

theorem appears_of_mem_selectionAppearances (enters : EntersOnce schema document object enter)
    {appearance : Appearance} {items : List Selection} :
    ∀ {selection : Selection} {inherited : List PlanCondition} {entered : List String},
      selection ∈ items →
      appearance ∈ selectionAppearances schema object enter inherited entered selection →
        Appears schema document object inherited entered items appearance
  | .field head selections, inherited, entered, itemMem, member => by
      simp only [selectionAppearances] at member
      split at member
      · cases member
      · rename_i definition defined
        rw [List.mem_singleton] at member
        subst member
        exact .field itemMem defined
  | .spread head, inherited, entered, itemMem, member => by
      simp only [selectionAppearances] at member
      rcases enters _ _ _ _ member with ⟨fragment, defined, fresh, applies, inside⟩
      exact .spread itemMem defined fresh applies inside
  | .inlineFragment head ⟨id, inner, span⟩, inherited, entered, itemMem, member => by
      simp only [selectionAppearances, setAppearances] at member
      split at member
      · rename_i applies
        exact .inlineFragment itemMem applies (appears_of_mem_itemAppearances enters member)
      · cases member

theorem appears_of_mem_itemAppearances (enters : EntersOnce schema document object enter)
    {appearance : Appearance} :
    ∀ {items : List Selection} {inherited : List PlanCondition} {entered : List String},
      appearance ∈ itemAppearances schema object enter inherited entered items →
        Appears schema document object inherited entered items appearance
  | [], _, _, member => by simp [itemAppearances] at member
  | selection :: rest, inherited, entered, member => by
      simp only [itemAppearances, List.mem_append] at member
      rcases member with member | member
      · exact appears_of_mem_selectionAppearances enters List.mem_cons_self member
      · exact (appears_of_mem_itemAppearances enters member).mono (List.subset_cons_self _ _)

end

theorem enterWithin_entersOnce (bound : Nat) :
    EntersOnce schema document object (enterWithin schema document object bound) := by
  induction bound with
  | zero =>
      intro conditions entered head appearance member
      cases member
  | succ bound ih =>
      intro conditions entered head appearance member
      simp only [enterWithin] at member
      split at member
      · cases member
      · rename_i fragment defined
        split at member
        · cases member
        · rename_i allowed
          simp only [Bool.or_eq_true, Bool.not_eq_true', not_or, Bool.not_eq_false,
            List.contains_iff_mem] at allowed
          rw [appearancesWithin_eq] at member
          exact ⟨fragment, defined, allowed.1, allowed.2, appears_of_mem_itemAppearances ih member⟩

/-- Collecting finds just what appears, after any fragments have been entered. -/
theorem mem_appearances_iff {inherited : List PlanCondition} {entered : List String}
    {selections : SelectionSet} {appearance : Appearance} :
    appearance ∈ appearances schema document object inherited entered selections ↔
      Appears schema document object inherited entered selections.items appearance := by
  unfold appearances
  rw [appearancesWithin_eq]
  constructor
  · exact appears_of_mem_itemAppearances (enterWithin_entersOnce _)
  · intro appears
    apply appears.mem_itemAppearances
    have all := document.remaining_le (fun _ => 1) entered
    simpa using all

end Bound

/-! ## Records of appearances -/

/-- The record of an appearance for an object type: the same field, on a type that covers the object
type. -/
structure Appearance.IsOf (context : RuleContext) (object : SchemaType) (appearance : Appearance)
    (record : FieldRecord) : Prop where
  field : record.field = appearance.field
  selections : record.selections = appearance.selections
  stated : record.definition =
    context.schema.field? record.parent.name appearance.field.name.text
  defined : context.schema.field? object.name appearance.field.name.text =
    some appearance.definition
  parentKnown : context.schema.type? record.parent.name = some record.parent
  covers : record.parent.Covers context.schema object

theorem Schema.covers_of_conditionApplies {schema : Schema} (wellFormed : schema.IsWellFormed)
    {name : String} {object : SchemaType}
    (applies : schema.conditionApplies (some name) object = true) :
    ∃ type, schema.type? name = some type ∧ schema.type? type.name = some type ∧
      type.Covers schema object := by
  unfold conditionApplies at applies
  simp only at applies
  cases found : schema.type? name with
  | none => simp [found] at applies
  | some type =>
      refine ⟨type, rfl, wellFormed.type?_name found, ?_⟩
      simp only [found, Bool.or_eq_true, beq_iff_eq, Bool.and_eq_true, isPossibleType,
        List.contains_iff_mem] at applies
      exact applies

/-- What appears for an object type is in the expansion on every type that covers it. -/
theorem Appears.exists_record {context : RuleContext} (wellFormed : context.schema.IsWellFormed)
    {object : SchemaType} {inherited : List PlanCondition} {entered : List String}
    {items : List Selection} {appearance : Appearance}
    (appears : Appears context.schema context.document object inherited entered items appearance)
    {type : SchemaType} (known : context.schema.type? type.name = some type)
    (covers : type.Covers context.schema object) :
    ∃ record, appearance.IsOf context object record ∧ InExpansion context type items record := by
  induction appears generalizing type with
  | @field inherited entered items head selections definition member defined =>
      exact ⟨.on context.schema type head selections, ⟨rfl, rfl, rfl, defined, known, covers⟩,
        .field member⟩
  | @inlineFragment inherited entered items head selections appearance member applies inside ih =>
      cases condition : head.typeCondition with
      | none =>
          rcases ih known covers with ⟨record, isOf, inExpansion⟩
          refine ⟨record, isOf, .inlineFragment member ?_ inExpansion⟩
          rw [condition]
          rfl
      | some name =>
          rw [condition] at applies
          rcases Schema.covers_of_conditionApplies wellFormed applies with
            ⟨inner, found, innerKnown, innerCovers⟩
          rcases ih innerKnown innerCovers with ⟨record, isOf, inExpansion⟩
          refine ⟨record, isOf, .inlineFragment member ?_ inExpansion⟩
          rw [condition]
          exact found
  | spread member defined fresh applies inside ih =>
      rcases Schema.covers_of_conditionApplies wellFormed applies with
        ⟨inner, found, innerKnown, innerCovers⟩
      rcases ih innerKnown innerCovers with ⟨record, isOf, inExpansion⟩
      exact ⟨record, isOf, .spread member defined found inExpansion⟩

end GraphQL

import GraphQL.Document.Selections
import GraphQL.Validation.Merging
import Mathlib.Data.List.Nodup

/-!
# The selection sets that a walk opens

A walk opens the selection set of an operation, a fragment or a field together with the type that it
is on, if that type is known. Everything that is selected in an opened set is met by the walk at the
same type, so what one walk has opened is closed under going deeper. The numbers of the sets tell
them apart, and then the number of a set also determines the type at which it is opened.
-/

namespace GraphQL

mutual

/-- The selection sets in a selection, each before those inside it. -/
def Selection.sets : Selection → List SelectionSet
  | .field _ none => []
  | .field _ (some selections) => selections.sets
  | .inlineFragment _ selections => selections.sets
  | .spread _ => []

def SelectionSet.sets : SelectionSet → List SelectionSet
  | ⟨id, items, span⟩ => ⟨id, items, span⟩ :: Selection.listSets items

def Selection.listSets : List Selection → List SelectionSet
  | [] => []
  | selection :: rest => selection.sets ++ Selection.listSets rest

end

theorem SelectionSet.mem_sets_self (selections : SelectionSet) : selections ∈ selections.sets := by
  cases selections
  simp [SelectionSet.sets]

mutual

theorem Selection.length_sets : ∀ selection : Selection, selection.sets.length = selection.setCount
  | .field _ none => rfl
  | .field _ (some selections) => by
      simp only [Selection.sets, Selection.setCount]
      exact selections.length_sets
  | .inlineFragment _ selections => by
      simp only [Selection.sets, Selection.setCount]
      exact selections.length_sets
  | .spread _ => rfl

theorem SelectionSet.length_sets :
    ∀ selections : SelectionSet, selections.sets.length = selections.setCount
  | ⟨_, items, _⟩ => by
      simp only [SelectionSet.sets, SelectionSet.setCount, List.length_cons]
      rw [Selection.length_listSets items]

theorem Selection.length_listSets :
    ∀ items : List Selection, (Selection.listSets items).length = Selection.setCounts items
  | [] => rfl
  | selection :: rest => by
      simp only [Selection.listSets, Selection.setCounts, List.length_append]
      rw [selection.length_sets, Selection.length_listSets rest]

end

mutual

theorem Selection.sublist_sets_of_mem {inner : SelectionSet} :
    ∀ {selection : Selection}, inner ∈ selection.sets → inner.sets.Sublist selection.sets
  | .field _ (some selections), member => by
      simp only [Selection.sets] at member ⊢
      exact SelectionSet.sublist_sets_of_mem member
  | .inlineFragment _ selections, member => by
      simp only [Selection.sets] at member ⊢
      exact SelectionSet.sublist_sets_of_mem member

/-- The sets of a set inside another one are among the sets of that one. -/
theorem SelectionSet.sublist_sets_of_mem {inner : SelectionSet} :
    ∀ {selections : SelectionSet}, inner ∈ selections.sets → inner.sets.Sublist selections.sets
  | ⟨id, items, span⟩, member => by
      simp only [SelectionSet.sets, List.mem_cons] at member
      rcases member with rfl | member
      · exact List.Sublist.refl _
      · simp only [SelectionSet.sets]
        exact (Selection.sublist_listSets_of_mem member).cons _

theorem Selection.sublist_listSets_of_mem {inner : SelectionSet} :
    ∀ {items : List Selection}, inner ∈ Selection.listSets items →
      inner.sets.Sublist (Selection.listSets items)
  | selection :: rest, member => by
      simp only [Selection.listSets, List.mem_append] at member ⊢
      rcases member with member | member
      · exact (Selection.sublist_sets_of_mem member).trans (List.sublist_append_left _ _)
      · exact (Selection.sublist_listSets_of_mem member).trans (List.sublist_append_right _ _)

end

mutual

theorem Selection.spreads_subset_of_mem {inner : SelectionSet} :
    ∀ {selection : Selection}, inner ∈ selection.sets → inner.spreads ⊆ selection.spreads
  | .field _ (some selections), member => by
      simp only [Selection.sets, Selection.spreads] at member ⊢
      exact SelectionSet.spreads_subset_of_mem member
  | .inlineFragment _ selections, member => by
      simp only [Selection.sets, Selection.spreads] at member ⊢
      exact SelectionSet.spreads_subset_of_mem member

theorem SelectionSet.spreads_subset_of_mem {inner : SelectionSet} :
    ∀ {selections : SelectionSet}, inner ∈ selections.sets → inner.spreads ⊆ selections.spreads
  | ⟨id, items, span⟩, member => by
      simp only [SelectionSet.sets, List.mem_cons] at member
      rcases member with rfl | member
      · exact List.Subset.refl _
      · simp only [SelectionSet.spreads]
        exact Selection.listSpreads_subset_of_mem member

theorem Selection.listSpreads_subset_of_mem {inner : SelectionSet} :
    ∀ {items : List Selection}, inner ∈ Selection.listSets items →
      inner.spreads ⊆ Selection.listSpreads items
  | selection :: rest, member => by
      simp only [Selection.listSets, Selection.listSpreads, List.mem_append] at member ⊢
      rcases member with member | member
      · exact List.subset_append_of_subset_left _ (Selection.spreads_subset_of_mem member)
      · exact List.subset_append_of_subset_right _ (Selection.listSpreads_subset_of_mem member)

end

theorem Selection.mem_listSpreads_of_spread {head : FragmentSpread} :
    ∀ {items : List Selection}, .spread head ∈ items →
      head.name.text ∈ Selection.listSpreads items
  | selection :: rest, member => by
      simp only [Selection.listSpreads, List.mem_append]
      rcases List.mem_cons.mp member with rfl | member
      · left
        simp [Selection.spreads]
      · exact Or.inr (Selection.mem_listSpreads_of_spread member)

theorem Selection.listSets_subset_of_mem {selection : Selection} :
    ∀ {items : List Selection}, selection ∈ items → selection.sets ⊆ Selection.listSets items
  | first :: rest, member => by
      simp only [Selection.listSets]
      rcases List.mem_cons.mp member with rfl | member
      · exact List.subset_append_left _ _
      · exact List.subset_append_of_subset_right _ (Selection.listSets_subset_of_mem member)

namespace Document

/-- The selection sets of a definition, in the order of the source. -/
def definitionSets : Definition → List SelectionSet
  | .operation definition => definition.selections.sets
  | .fragment definition => definition.selections.sets
  | _ => []

/-- All selection sets of a document, in the order of the source. -/
def sets (document : Document) : List SelectionSet :=
  document.definitions.flatMap definitionSets

/-- No two selection sets have the same number. Parsing numbers them one after the other. -/
def HasDistinctNumbers (document : Document) : Prop :=
  (document.sets.map (·.id)).Nodup

instance (document : Document) : Decidable document.HasDistinctNumbers :=
  inferInstanceAs (Decidable (List.Nodup _))

/-- The names spread anywhere in a document, with repetitions. -/
def spreadNames (document : Document) : List String :=
  document.selectionSets.flatMap (·.spreads)

theorem length_spreadNames (document : Document) :
    document.spreadNames.length = document.spreadCount := by
  unfold spreadNames spreadCount
  induction document.selectionSets with
  | nil => rfl
  | cons selections rest ih => simp [ih]

private theorem foldr_setCount_append (left right : List SelectionSet) :
    (left ++ right).foldr (fun selections rest => selections.setCount + rest) 0
      = left.foldr (fun selections rest => selections.setCount + rest) 0
        + right.foldr (fun selections rest => selections.setCount + rest) 0 := by
  induction left with
  | nil => simp
  | cons selections rest ih => simp [ih, Nat.add_assoc]

theorem length_sets (document : Document) : document.sets.length = document.setCount := by
  rcases document with ⟨definitions, span⟩
  unfold sets setCount selectionSets
  rw [foldr_setCount_append]
  induction definitions with
  | nil => rfl
  | cons definition rest ih =>
      cases definition with
      | operation definition =>
          simp [operations, fragments, definitionSets, SelectionSet.length_sets] at ih ⊢
          omega
      | fragment definition =>
          simp [operations, fragments, definitionSets, SelectionSet.length_sets] at ih ⊢
          omega
      | schema definition => simpa [operations, fragments, definitionSets] using ih
      | type definition => simpa [operations, fragments, definitionSets] using ih
      | directive definition => simpa [operations, fragments, definitionSets] using ih

theorem mem_sets_iff {document : Document} {selections : SelectionSet} :
    selections ∈ document.sets ↔ ∃ outer ∈ document.selectionSets, selections ∈ outer.sets := by
  unfold sets selectionSets operations fragments
  simp only [List.mem_flatMap, List.mem_append, List.mem_map, List.mem_filterMap]
  constructor
  · rintro ⟨definition, member, inside⟩
    cases definition with
    | operation definition => exact ⟨_, .inl ⟨definition, ⟨_, member, rfl⟩, rfl⟩, inside⟩
    | fragment definition => exact ⟨_, .inr ⟨definition, ⟨_, member, rfl⟩, rfl⟩, inside⟩
    | schema definition => cases inside
    | type definition => cases inside
    | directive definition => cases inside
  · rintro ⟨outer, ⟨operation, ⟨definition, member, known⟩, rfl⟩
      | ⟨fragment, ⟨definition, member, known⟩, rfl⟩, inside⟩
    · cases definition <;> simp_all
      exact ⟨_, member, inside⟩
    · cases definition <;> simp_all
      exact ⟨_, member, inside⟩

theorem setCount_le_of_mem {document : Document} {selections : SelectionSet}
    (member : selections ∈ document.sets) : selections.setCount ≤ document.setCount := by
  rcases List.mem_flatMap.mp member with ⟨definition, definitionMem, inside⟩
  rw [← document.length_sets, ← selections.length_sets]
  have outer : (definitionSets definition).Sublist document.sets := by
    rw [sets, List.flatMap_def]
    exact List.sublist_flatten_of_mem (List.mem_map_of_mem definitionMem)
  have inner : selections.sets.Sublist (definitionSets definition) := by
    cases definition with
    | operation definition => exact SelectionSet.sublist_sets_of_mem inside
    | fragment definition => exact SelectionSet.sublist_sets_of_mem inside
    | schema definition => cases inside
    | type definition => cases inside
    | directive definition => cases inside
  exact (inner.trans outer).length_le

theorem spreads_subset_of_mem {document : Document} {selections : SelectionSet}
    (member : selections ∈ document.sets) : selections.spreads ⊆ document.spreadNames := by
  rcases mem_sets_iff.mp member with ⟨outer, outerMem, inside⟩
  intro name nameMem
  exact List.mem_flatMap.mpr
    ⟨outer, outerMem, SelectionSet.spreads_subset_of_mem inside nameMem⟩

end Document

namespace Merging

/-- The selection sets that some events open, with their types. -/
def openedSets (events : List Event) : List (SchemaType × SelectionSet) :=
  events.filterMap openedSet?

@[simp]
theorem openedSets_append (first second : List Event) :
    openedSets (first ++ second) = openedSets first ++ openedSets second := by
  simp [openedSets]

@[simp]
theorem openedSets_ofDirectives (location : DirectiveLocation) (directives : List Directive) :
    openedSets (Event.ofDirectives location directives) = [] := by
  simp [openedSets, Event.ofDirectives, List.filterMap_eq_nil_iff, openedSet?]

theorem openedSets_cons (event : Event) (events : List Event) :
    openedSets (event :: events) = (openedSet? event).toList ++ openedSets events := by
  unfold openedSets
  cases known : openedSet? event with
  | none => simp [known]
  | some opened => simp [known]

mutual

theorem openedSets_ofSelection_sublist (schema : Schema) (type : Option SchemaType) :
    ∀ selection : Selection,
      ((openedSets (Event.ofSelection schema type selection)).map (·.2)).Sublist selection.sets
  | .field head none => by
      simp [Event.ofSelection, openedSets_cons, openedSet?, Selection.sets]
  | .field head (some ⟨id, items, span⟩) => by
      have inside := openedSets_ofSelections_sublist schema
        (Event.returnType schema (Event.fieldDefinition schema type head)) items
      simp only [Event.ofSelection, Event.ofSelectionSet, Selection.sets, SelectionSet.sets,
        List.cons_append, openedSets_cons, openedSets_append, openedSets_ofDirectives,
        List.nil_append, List.map_append]
      cases returns : Event.returnType schema (Event.fieldDefinition schema type head) with
      | none =>
          rw [returns] at inside
          simpa [openedSet?] using inside.cons _
      | some type =>
          rw [returns] at inside
          simpa [openedSet?] using inside
  | .spread head => by
      simp [Event.ofSelection, openedSets_cons, openedSet?, Selection.sets]
  | .inlineFragment head ⟨id, items, span⟩ => by
      have inside := openedSets_ofSelections_sublist schema
        (Event.conditionType schema type head.typeCondition) items
      simp only [Event.ofSelection, Event.ofSelectionSet, Selection.sets, SelectionSet.sets,
        List.cons_append, openedSets_cons, openedSets_append, openedSets_ofDirectives,
        List.nil_append, openedSet?, Option.toList_none]
      exact inside.cons _

/-- What is opened inside some selections are sets of these selections, each at most once. -/
theorem openedSets_ofSelections_sublist (schema : Schema) (type : Option SchemaType) :
    ∀ items : List Selection,
      ((openedSets (Event.ofSelections schema type items)).map (·.2)).Sublist
        (Selection.listSets items)
  | [] => by simp [Event.ofSelections, openedSets, Selection.listSets]
  | selection :: rest => by
      simp only [Event.ofSelections, openedSets_append, Selection.listSets, List.map_append]
      exact (openedSets_ofSelection_sublist schema type selection).append
        (openedSets_ofSelections_sublist schema type rest)

end

/-- Opening a set and walking through it opens sets of it, each at most once. -/
theorem openedSets_cons_ofSelectionSet_sublist (schema : Schema) (type : Option SchemaType)
    (selections : SelectionSet) (opened : Option (SchemaType × SelectionSet))
    (same : ∀ pair ∈ opened, pair.2 = selections) :
    ((opened.toList ++ openedSets (Event.ofSelectionSet schema type selections)).map (·.2)).Sublist
      selections.sets := by
  rcases selections with ⟨id, items, span⟩
  have inside := openedSets_ofSelections_sublist schema type items
  simp only [Event.ofSelectionSet, SelectionSet.sets, List.map_append]
  cases opened with
  | none => simpa using inside.cons _
  | some pair =>
      have pairSame := same pair rfl
      simpa [pairSame] using inside

theorem openedSets_ofDefinition_sublist (schema : Schema) (definition : Definition) :
    ((openedSets (Event.ofDefinition schema definition)).map (·.2)).Sublist
      (Document.definitionSets definition) := by
  cases definition with
  | operation definition =>
      have declarations : openedSets (definition.variableDefinitions.flatMap fun declared =>
          Event.ofDirectives .variableDefinition declared.directives) = [] := by
        induction definition.variableDefinitions with
        | nil => rfl
        | cons declared rest ih => simp [ih]
      simp only [Event.ofDefinition, Event.ofOperation, openedSets_cons, openedSets_append,
        openedSets_ofDirectives, declarations, List.cons_append, List.nil_append, List.append_nil,
        Document.definitionSets]
      apply openedSets_cons_ofSelectionSet_sublist
      intro pair pairMem
      cases known : (schema.rootTypeName? definition.kind).bind schema.type? with
      | none => simp [openedSet?, known] at pairMem
      | some root =>
          simp only [openedSet?, known, Option.mem_def, Option.some.injEq] at pairMem
          rw [← pairMem]
  | fragment definition =>
      simp only [Event.ofDefinition, Event.ofFragment, openedSets_cons, openedSets_append,
        openedSets_ofDirectives, List.cons_append, List.nil_append, Document.definitionSets]
      apply openedSets_cons_ofSelectionSet_sublist
      intro pair pairMem
      cases known : schema.type? definition.typeCondition.text with
      | none => simp [openedSet?, known] at pairMem
      | some type =>
          simp only [openedSet?, known, Option.mem_def, Option.some.injEq] at pairMem
          rw [← pairMem]
  | schema definition => simp [Event.ofDefinition, openedSets]
  | type definition => simp [Event.ofDefinition, openedSets]
  | directive definition => simp [Event.ofDefinition, openedSets]

theorem openedSets_ofDocument_sublist (schema : Schema) (document : Document) :
    ((openedSets (Event.ofDocument schema document)).map (·.2)).Sublist document.sets := by
  unfold Event.ofDocument Document.sets
  rw [openedSets_append]
  have last : openedSets [Event.endOfDocument] = [] := rfl
  rw [last, List.append_nil]
  induction document.definitions with
  | nil => simp [openedSets]
  | cons definition rest ih =>
      simp only [List.flatMap_cons, openedSets_append, List.map_append]
      exact (openedSets_ofDefinition_sublist schema definition).append ih

/-- The walk over the document opens a selection set on a type. -/
def Opens (context : RuleContext) (owner : SchemaType) (selections : SelectionSet) : Prop :=
  ∃ event ∈ Event.ofDocument context.schema context.document,
    openedSet? event = some (owner, selections)

namespace Opens

variable {context : RuleContext} {owner : SchemaType} {selections : SelectionSet}

theorem mem_openedSets (opens : Opens context owner selections) :
    (owner, selections) ∈ openedSets (Event.ofDocument context.schema context.document) :=
  List.mem_filterMap.mpr opens

theorem mem_sets (opens : Opens context owner selections) : selections ∈ context.document.sets :=
  (openedSets_ofDocument_sublist context.schema context.document).subset
    (List.mem_map_of_mem opens.mem_openedSets)

/-- The number of an opened set determines the set and the type at which it is opened. -/
theorem eq_of_id_eq (numbered : context.document.HasDistinctNumbers) {otherOwner : SchemaType}
    {other : SelectionSet} (opens : Opens context owner selections)
    (otherOpens : Opens context otherOwner other) (same : selections.id = other.id) :
    owner = otherOwner ∧ selections = other := by
  have distinct : ((openedSets (Event.ofDocument context.schema context.document)).map
      fun pair => pair.2.id).Nodup := by
    have sublist := (openedSets_ofDocument_sublist context.schema context.document).map
      (fun selections : SelectionSet => selections.id)
    rw [List.map_map] at sublist
    exact numbered.sublist sublist
  have equal := List.inj_on_of_nodup_map distinct opens.mem_openedSets
    otherOpens.mem_openedSets same
  simpa using equal

end Opens

end Merging

end GraphQL

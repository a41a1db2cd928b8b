import GraphQL.Proofs.Merging.Expansion

/-!
# What groupings hold

A grouping lists under every response key the fields of a selection set in their order, those of
inline fragments included, and the fragments spread there. The rest of an expansion lies behind the
spreads: it is reached by going from fragment to fragment, and the number of steps is what later
inductions count.
-/

namespace GraphQL
namespace Merging

mutual

/-- The fields in a selection on a type, without those of spread fragments. -/
def recordsOf (schema : Schema) (owner : SchemaType) : Selection → List FieldRecord
  | .field head selections => [.on schema owner head selections]
  | .spread _ => []
  | .inlineFragment head selections =>
      match Event.conditionType schema (some owner) head.typeCondition with
      | none => []
      | some inner => recordsOfSet schema inner selections

def recordsOfSet (schema : Schema) (owner : SchemaType) : SelectionSet → List FieldRecord
  | ⟨_, items, _⟩ => recordsIn schema owner items

def recordsIn (schema : Schema) (owner : SchemaType) : List Selection → List FieldRecord
  | [] => []
  | selection :: rest => recordsOf schema owner selection ++ recordsIn schema owner rest

end

mutual

/-- The names spread in a selection on a type, without those inside spread fragments. -/
def spreadsOf (schema : Schema) (owner : SchemaType) : Selection → List String
  | .field _ _ => []
  | .spread head => [head.name.text]
  | .inlineFragment head selections =>
      match Event.conditionType schema (some owner) head.typeCondition with
      | none => []
      | some inner => spreadsOfSet schema inner selections

def spreadsOfSet (schema : Schema) (owner : SchemaType) : SelectionSet → List String
  | ⟨_, items, _⟩ => spreadsIn schema owner items

def spreadsIn (schema : Schema) (owner : SchemaType) : List Selection → List String
  | [] => []
  | selection :: rest => spreadsOf schema owner selection ++ spreadsIn schema owner rest

end

namespace Grouping

/-- A grouping with more records and more spreads. -/
def extend (grouping : Grouping) (records : List FieldRecord) (spreads : List String) : Grouping :=
  { grouping with
    fields := OrderedMap.addGrouped (·.field.responseKey) grouping.fields records
    spreads := grouping.spreads ++ spreads }

@[simp]
theorem extend_nil (grouping : Grouping) : grouping.extend [] [] = grouping := by
  simp [extend]

theorem extend_extend (grouping : Grouping) (records moreRecords : List FieldRecord)
    (spreads moreSpreads : List String) :
    (grouping.extend records spreads).extend moreRecords moreSpreads =
      grouping.extend (records ++ moreRecords) (spreads ++ moreSpreads) := by
  simp [extend, OrderedMap.addGrouped_append]

mutual

theorem addSelection_eq_extend (schema : Schema) (owner : SchemaType) (grouping : Grouping) :
    ∀ selection : Selection,
      addSelection schema owner grouping selection =
        grouping.extend (recordsOf schema owner selection) (spreadsOf schema owner selection)
  | .field head selections => by
      simp only [addSelection, recordsOf, spreadsOf]
      simp [extend, addField, FieldRecord.on, OrderedMap.addGrouped_cons]
  | .spread head => by
      simp only [addSelection, recordsOf, spreadsOf]
      simp [extend, addSpread]
  | .inlineFragment ⟨none, directives, span⟩ selections => by
      simp only [addSelection, recordsOf, spreadsOf, Event.conditionType]
      exact addSelectionSet_eq_extend schema owner grouping selections
  | .inlineFragment ⟨some condition, directives, span⟩ selections => by
      simp only [addSelection, recordsOf, spreadsOf, Event.conditionType]
      cases known : schema.type? condition.text with
      | none => simp
      | some inner => exact addSelectionSet_eq_extend schema inner grouping selections

theorem addSelectionSet_eq_extend (schema : Schema) (owner : SchemaType) (grouping : Grouping) :
    ∀ selections : SelectionSet,
      addSelectionSet schema owner grouping selections =
        grouping.extend (recordsOfSet schema owner selections)
          (spreadsOfSet schema owner selections)
  | ⟨_, items, _⟩ => by
      simp only [addSelectionSet, recordsOfSet, spreadsOfSet]
      exact addSelections_eq_extend schema owner grouping items

/-- Adding selections to a grouping adds their records and spreads. -/
theorem addSelections_eq_extend (schema : Schema) (owner : SchemaType) (grouping : Grouping) :
    ∀ items : List Selection,
      addSelections schema owner grouping items =
        grouping.extend (recordsIn schema owner items) (spreadsIn schema owner items)
  | [] => by simp [addSelections, recordsIn, spreadsIn]
  | selection :: rest => by
      simp only [addSelections, recordsIn, spreadsIn]
      rw [addSelection_eq_extend schema owner grouping selection, addSelections_eq_extend,
        extend_extend]

end

@[simp]
theorem set_ofSelectionSet (schema : Schema) (owner : SchemaType) (selections : SelectionSet) :
    (ofSelectionSet schema owner selections).set = some selections.id := by
  simp [ofSelectionSet, addSelectionSet_eq_extend, extend]

@[simp]
theorem spreads_ofSelectionSet (schema : Schema) (owner : SchemaType) (selections : SelectionSet) :
    (ofSelectionSet schema owner selections).spreads = spreadsIn schema owner selections.items := by
  cases selections
  simp [ofSelectionSet, addSelectionSet_eq_extend, extend, spreadsOfSet]

theorem fields_ofSelectionSet (schema : Schema) (owner : SchemaType) (selections : SelectionSet) :
    (ofSelectionSet schema owner selections).fields =
      OrderedMap.grouped (·.field.responseKey) (recordsIn schema owner selections.items) := by
  cases selections
  simp [ofSelectionSet, addSelectionSet_eq_extend, extend, recordsOfSet, OrderedMap.grouped]

end Grouping

theorem recordsOf_subset {schema : Schema} {owner : SchemaType} {selection : Selection} :
    ∀ {items : List Selection}, selection ∈ items →
      recordsOf schema owner selection ⊆ recordsIn schema owner items
  | first :: rest, member => by
      simp only [recordsIn]
      rcases List.mem_cons.mp member with rfl | member
      · exact List.subset_append_left _ _
      · exact List.subset_append_of_subset_right _ (recordsOf_subset member)

theorem spreadsOf_subset {schema : Schema} {owner : SchemaType} {selection : Selection} :
    ∀ {items : List Selection}, selection ∈ items →
      spreadsOf schema owner selection ⊆ spreadsIn schema owner items
  | first :: rest, member => by
      simp only [spreadsIn]
      rcases List.mem_cons.mp member with rfl | member
      · exact List.subset_append_left _ _
      · exact List.subset_append_of_subset_right _ (spreadsOf_subset member)

theorem recordsOfSet_eq (schema : Schema) (owner : SchemaType) (selections : SelectionSet) :
    recordsOfSet schema owner selections = recordsIn schema owner selections.items := by
  cases selections
  simp [recordsOfSet]

theorem spreadsOfSet_eq (schema : Schema) (owner : SchemaType) (selections : SelectionSet) :
    spreadsOfSet schema owner selections = spreadsIn schema owner selections.items := by
  cases selections
  simp [spreadsOfSet]

/-! ## Expansions by fragments -/

variable {context : RuleContext}

theorem fragmentWithType?_eq_some_iff {name : String} {fragment : FragmentDefinition}
    {type : SchemaType} :
    fragmentWithType? context name = some (fragment, type) ↔
      context.fragment? name = some fragment ∧
        context.type? fragment.typeCondition.text = some type := by
  simp only [fragmentWithType?, Option.bind_eq_bind, Option.bind_eq_some_iff, Option.pure_def,
    Option.some.injEq, Prod.mk.injEq]
  constructor
  · rintro ⟨found, defined, foundType, known, rfl, rfl⟩
    exact ⟨defined, known⟩
  · rintro ⟨defined, known⟩
    exact ⟨fragment, defined, type, known, rfl, rfl⟩

theorem Opens.of_some {type : SchemaType} {selections : SelectionSet}
    (opens : Opens context type selections) :
    ∀ set, some selections = some set → Opens context type set := by
  rintro set ⟨⟩
  exact opens

theorem Opens.ofFragmentWithType {name : String} {fragment : FragmentDefinition}
    {type : SchemaType} (found : fragmentWithType? context name = some (fragment, type)) :
    Opens context type fragment.selections := by
  rcases fragmentWithType?_eq_some_iff.mp found with ⟨defined, known⟩
  exact .ofFragment (fragment?_mem defined) known

/-- The field is reached from a fragment by going through so many other fragments. -/
inductive InFragment (context : RuleContext) : Nat → String → FieldRecord → Prop where
  | own {name : String} {fragment : FragmentDefinition} {type : SchemaType} {record : FieldRecord}
      (found : fragmentWithType? context name = some (fragment, type))
      (member : record ∈ recordsIn context.schema type fragment.selections.items) :
      InFragment context 0 name record
  | nested {steps : Nat} {name inner : String} {fragment : FragmentDefinition} {type : SchemaType}
      {record : FieldRecord} (found : fragmentWithType? context name = some (fragment, type))
      (spread : inner ∈ spreadsIn context.schema type fragment.selections.items)
      (inside : InFragment context steps inner record) :
      InFragment context (steps + 1) name record

mutual

theorem inExpansion_of_mem_recordsOf {record : FieldRecord} :
    ∀ {selection : Selection} {owner : SchemaType},
      record ∈ recordsOf context.schema owner selection →
        InExpansion context owner [selection] record
  | .field head selections, owner, member => by
      simp only [recordsOf, List.mem_singleton] at member
      subst record
      exact .field List.mem_cons_self
  | .spread head, owner, member => by simp [recordsOf] at member
  | .inlineFragment head ⟨id, items, span⟩, owner, member => by
      simp only [recordsOf] at member
      split at member
      · cases member
      · rename_i inner known
        simp only [recordsOfSet] at member
        exact .inlineFragment List.mem_cons_self known (inExpansion_of_mem_recordsIn member)

/-- The records of a grouping belong to the expansion. -/
theorem inExpansion_of_mem_recordsIn {record : FieldRecord} :
    ∀ {items : List Selection} {owner : SchemaType},
      record ∈ recordsIn context.schema owner items → InExpansion context owner items record
  | [], _, member => by simp [recordsIn] at member
  | selection :: rest, owner, member => by
      simp only [recordsIn, List.mem_append] at member
      rcases member with member | member
      · exact (inExpansion_of_mem_recordsOf member).mono (by simp)
      · exact (inExpansion_of_mem_recordsIn member).mono (List.subset_cons_self _ _)

end

mutual

theorem inExpansion_of_mem_spreadsOf {name : String} {fragment : FragmentDefinition}
    {type : SchemaType} {record : FieldRecord}
    (found : fragmentWithType? context name = some (fragment, type))
    (inside : InExpansion context type fragment.selections.items record) :
    ∀ {selection : Selection} {owner : SchemaType},
      name ∈ spreadsOf context.schema owner selection →
        InExpansion context owner [selection] record
  | .field head selections, owner, member => by simp [spreadsOf] at member
  | .spread head, owner, member => by
      simp only [spreadsOf, List.mem_singleton] at member
      subst name
      rcases fragmentWithType?_eq_some_iff.mp found with ⟨defined, known⟩
      exact .spread List.mem_cons_self defined known inside
  | .inlineFragment head ⟨id, items, span⟩, owner, member => by
      simp only [spreadsOf] at member
      split at member
      · cases member
      · rename_i inner known
        simp only [spreadsOfSet] at member
        exact .inlineFragment List.mem_cons_self known
          (inExpansion_of_mem_spreadsIn found inside member)

/-- What lies behind the spreads of a grouping belongs to the expansion. -/
theorem inExpansion_of_mem_spreadsIn {name : String} {fragment : FragmentDefinition}
    {type : SchemaType} {record : FieldRecord}
    (found : fragmentWithType? context name = some (fragment, type))
    (inside : InExpansion context type fragment.selections.items record) :
    ∀ {items : List Selection} {owner : SchemaType},
      name ∈ spreadsIn context.schema owner items → InExpansion context owner items record
  | [], _, member => by simp [spreadsIn] at member
  | selection :: rest, owner, member => by
      simp only [spreadsIn, List.mem_append] at member
      rcases member with member | member
      · exact (inExpansion_of_mem_spreadsOf found inside member).mono (by simp)
      · exact (inExpansion_of_mem_spreadsIn found inside member).mono (List.subset_cons_self _ _)

end

/-- An expansion is made of the records of a grouping and of what lies behind its spreads. -/
theorem InExpansion.records_or_spreads {owner : SchemaType} {items : List Selection}
    {record : FieldRecord} (inside : InExpansion context owner items record) :
    record ∈ recordsIn context.schema owner items ∨
      ∃ name ∈ spreadsIn context.schema owner items, ∃ steps,
        InFragment context steps name record := by
  induction inside with
  | field member =>
      left
      exact recordsOf_subset member (by simp [recordsOf])
  | @inlineFragment owner inner items head selections record member known inside ih =>
      have records : recordsIn context.schema inner selections.items ⊆
          recordsIn context.schema owner items := by
        have subset : _ ⊆ recordsIn context.schema owner items := recordsOf_subset member
        simpa only [recordsOf, known, recordsOfSet_eq] using subset
      have spreads : spreadsIn context.schema inner selections.items ⊆
          spreadsIn context.schema owner items := by
        have subset : _ ⊆ spreadsIn context.schema owner items := spreadsOf_subset member
        simpa only [spreadsOf, known, spreadsOfSet_eq] using subset
      rcases ih with own | ⟨name, nameMem, steps, behind⟩
      · exact .inl (records own)
      · exact .inr ⟨name, spreads nameMem, steps, behind⟩
  | @spread owner type items head fragment record member defined known inside ih =>
      have nameMem : head.name.text ∈ spreadsIn context.schema owner items :=
        spreadsOf_subset member (by simp [spreadsOf])
      have found := fragmentWithType?_eq_some_iff.mpr ⟨defined, known⟩
      rcases ih with own | ⟨name, innerMem, steps, behind⟩
      · exact .inr ⟨_, nameMem, 0, .own found own⟩
      · exact .inr ⟨_, nameMem, steps + 1, .nested found innerMem behind⟩

mutual

theorem spreadsOf_subset_spreads {schema : Schema} :
    ∀ {selection : Selection} {owner : SchemaType},
      spreadsOf schema owner selection ⊆ selection.spreads
  | .field head selections, owner => by simp [spreadsOf]
  | .spread head, owner => by simp [spreadsOf, Selection.spreads]
  | .inlineFragment head ⟨id, items, span⟩, owner => by
      simp only [spreadsOf, Selection.spreads, SelectionSet.spreads]
      split
      · exact List.nil_subset _
      · simp only [spreadsOfSet]
        exact spreadsIn_subset_listSpreads

/-- The spreads of a grouping are names spread in the selections. -/
theorem spreadsIn_subset_listSpreads {schema : Schema} :
    ∀ {items : List Selection} {owner : SchemaType},
      spreadsIn schema owner items ⊆ Selection.listSpreads items
  | [], _ => by simp [spreadsIn]
  | selection :: rest, owner => by
      simp only [spreadsIn, Selection.listSpreads]
      exact List.append_subset.mpr
        ⟨List.subset_append_of_subset_left _ spreadsOf_subset_spreads,
          List.subset_append_of_subset_right _ spreadsIn_subset_listSpreads⟩

end

mutual

theorem mem_sets_of_mem_recordsOf {schema : Schema} {record : FieldRecord} {set : SelectionSet}
    (selects : record.selections = some set) :
    ∀ {selection : Selection} {owner : SchemaType},
      record ∈ recordsOf schema owner selection → set ∈ selection.sets
  | .field head selections, owner, member => by
      simp only [recordsOf, List.mem_singleton] at member
      subst record
      have same : selections = some set := selects
      subst same
      exact set.mem_sets_self
  | .spread head, owner, member => by simp [recordsOf] at member
  | .inlineFragment head ⟨id, items, span⟩, owner, member => by
      simp only [recordsOf] at member
      split at member
      · cases member
      · simp only [recordsOfSet] at member
        simp only [Selection.sets, SelectionSet.sets]
        exact List.mem_cons_of_mem _ (mem_listSets_of_mem_recordsIn selects member)

/-- The selections of a record are among the sets of the selections that it is in. -/
theorem mem_listSets_of_mem_recordsIn {schema : Schema} {record : FieldRecord} {set : SelectionSet}
    (selects : record.selections = some set) :
    ∀ {items : List Selection} {owner : SchemaType},
      record ∈ recordsIn schema owner items → set ∈ Selection.listSets items
  | [], _, member => by simp [recordsIn] at member
  | selection :: rest, owner, member => by
      simp only [recordsIn, List.mem_append] at member
      simp only [Selection.listSets]
      rcases member with member | member
      · exact List.mem_append_left _ (mem_sets_of_mem_recordsOf selects member)
      · exact List.mem_append_right _ (mem_listSets_of_mem_recordsIn selects member)

end

theorem setCount_lt_of_mem_recordsIn {schema : Schema} {owner : SchemaType}
    {selections set : SelectionSet} {record : FieldRecord}
    (member : record ∈ recordsIn schema owner selections.items)
    (selects : record.selections = some set) : set.setCount < selections.setCount := by
  rcases selections with ⟨id, items, span⟩
  have sublist := Selection.sublist_listSets_of_mem (mem_listSets_of_mem_recordsIn selects member)
  have shorter := sublist.length_le
  rw [set.length_sets, Selection.length_listSets] at shorter
  exact Nat.lt_succ_of_le shorter

theorem Opens.spreads_subset {owner : SchemaType} {selections : SelectionSet}
    (opens : Opens context owner selections) :
    spreadsIn context.schema owner selections.items ⊆ context.document.spreadNames := by
  intro name nameMem
  apply Document.spreads_subset_of_mem opens.mem_sets
  rcases selections with ⟨id, items, span⟩
  exact spreadsIn_subset_listSpreads nameMem

end Merging
end GraphQL

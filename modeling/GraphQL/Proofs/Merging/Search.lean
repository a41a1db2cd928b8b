import GraphQL.Proofs.Merging.Grouping
import Mathlib.Data.List.ProdSigma

/-!
# The search for conflicts

What the search does, said without its memory: where a comparison leads and what it finds depend on
the comparison alone. The memory only decides whether a comparison is made. That the groupings in it
are the right ones rests on the numbers of the sets: a number belongs to one set, which the walk
opens at one type.

The search follows a chain of comparisons no longer than its bound. Making a comparison with a
fragment or between fragments takes an entry from the finite stock of those that are not remembered
yet, and between two of these a chain only goes deeper into one selection set.
-/

namespace GraphQL
namespace Merging

variable {context : RuleContext}

/-- The grouping of the selections of a field, made anew. -/
def groupingOn (schema : Schema) (owner : SchemaType) : Option SelectionSet → Grouping
  | none => {}
  | some selections => .ofSelectionSet schema owner selections

namespace Comparison

/-- The comparisons that a comparison leads to. -/
def next (context : RuleContext) : Comparison → List Comparison
  | .fields _ left right exclusive =>
      match left.returnType? context.schema, right.returnType? context.schema with
      | some leftType, some rightType =>
          betweenSelections (groupingOn context.schema leftType left.selections)
            (groupingOn context.schema rightType right.selections)
            (exclusive || onDistinctObjects left right)
      | _, _ => []
  | .withFragment grouping fragment exclusive =>
      match fragmentWithType? context fragment with
      | none => []
      | some (definition, type) =>
          let other := Grouping.ofSelectionSet context.schema type definition.selections
          between grouping.fields other.fields exclusive
            ++ other.spreads.map fun nested => .withFragment grouping nested exclusive
  | .fragments left right exclusive =>
      match fragmentWithType? context left, fragmentWithType? context right with
      | some (leftDefinition, leftType), some (rightDefinition, rightType) =>
          let leftGrouping :=
            Grouping.ofSelectionSet context.schema leftType leftDefinition.selections
          let rightGrouping :=
            Grouping.ofSelectionSet context.schema rightType rightDefinition.selections
          between leftGrouping.fields rightGrouping.fields exclusive
            ++ rightGrouping.spreads.map (fun nested => .fragments left nested exclusive)
            ++ leftGrouping.spreads.map (fun nested => .fragments nested right exclusive)
      | _, _ => []

/-- What a comparison finds by itself. -/
def found : Comparison → List Diagnostic
  | .fields key left right exclusive =>
      if exclusive || onDistinctObjects left right then [] else conflicts key left right
  | _ => []

/-- The comparison with its sides exchanged, if it is one of two fragments. -/
def swap : Comparison → Comparison
  | .fragments left right exclusive => .fragments right left exclusive
  | comparison => comparison

end Comparison

namespace Memory

/-- The search does not make the comparison again, or not at all if it is of a fragment with itself.
-/
def Remembers (memory : Memory) : Comparison → Prop
  | .fields .. => False
  | .withFragment grouping fragment exclusive =>
      (grouping.set, fragment, exclusive) ∈ memory.comparedWithFragment
  | .fragments left right exclusive =>
      left = right ∨
        ((sortedPair left right).1, (sortedPair left right).2, exclusive) ∈
          memory.comparedFragments

/-- Every grouping in the memory is that of the opened set with its number. -/
def IsSound (context : RuleContext) (memory : Memory) : Prop :=
  ∀ id grouping, (id, grouping) ∈ memory.groupings →
    ∃ owner selections, Opens context owner selections ∧ selections.id = id ∧
      grouping = .ofSelectionSet context.schema owner selections

/-- The same comparisons are remembered. -/
def RemembersSame (memory other : Memory) : Prop :=
  other.comparedFragments = memory.comparedFragments ∧
    other.comparedWithFragment = memory.comparedWithFragment

theorem lookup_isSome_mem {α : Type} {entries : List (Nat × α)} {id : Nat} {value : α}
    (known : entries.lookup id = some value) : (id, value) ∈ entries := by
  induction entries with
  | nil => simp at known
  | cons entry rest ih =>
      rw [List.lookup_cons] at known
      split at known
      · rename_i same
        simp only [Option.some.injEq] at known
        simp only [beq_iff_eq] at same
        simp [same, ← known]
      · exact List.mem_cons_of_mem _ (ih known)

/-- Looking up a grouping gives the one that would be made anew. -/
theorem grouping_spec (numbered : context.document.HasDistinctNumbers) {memory : Memory}
    (sound : memory.IsSound context) {owner : SchemaType} {selections : Option SelectionSet}
    (opens : ∀ set, selections = some set → Opens context owner set) :
    (memory.grouping context.schema owner selections).1 =
        groupingOn context.schema owner selections ∧
      (memory.grouping context.schema owner selections).2.IsSound context ∧
      memory.RemembersSame (memory.grouping context.schema owner selections).2 := by
  cases selections with
  | none => exact ⟨rfl, sound, rfl, rfl⟩
  | some set =>
      have opened := opens set rfl
      simp only [grouping, groupingOn]
      cases known : memory.groupings.lookup set.id with
      | some grouping =>
          rcases sound _ _ (lookup_isSome_mem known) with ⟨other, otherSet, otherOpens, same, rfl⟩
          rcases otherOpens.eq_of_id_eq numbered opened same with ⟨rfl, rfl⟩
          exact ⟨rfl, sound, rfl, rfl⟩
      | none =>
          refine ⟨rfl, ?_, rfl, rfl⟩
          intro id grouping member
          rcases List.mem_cons.mp member with same | member
          · cases same
            exact ⟨owner, set, opened, rfl, rfl⟩
          · exact sound id grouping member

end Memory

/-! ## Known comparisons -/

/-- The grouping is that of an opened set, or the one of a field without selections. -/
def Grouping.IsKnown (context : RuleContext) (grouping : Grouping) : Prop :=
  grouping = {} ∨ ∃ owner selections, Opens context owner selections ∧
    grouping = .ofSelectionSet context.schema owner selections

/-- The comparison is about what the walk meets. -/
def Comparison.IsKnown (context : RuleContext) : Comparison → Prop
  | .fields _ left right _ => left.IsMet context ∧ right.IsMet context
  | .withFragment grouping fragment _ =>
      grouping.IsKnown context ∧ fragment ∈ context.document.spreadNames
  | .fragments left right _ =>
      left ∈ context.document.spreadNames ∧ right ∈ context.document.spreadNames

theorem mem_between_iff {left right : OrderedMap (List FieldRecord)} {exclusive : Bool}
    {comparison : Comparison} :
    comparison ∈ between left right exclusive ↔
      ∃ key lefts rights first second, (key, lefts) ∈ left ∧ right.find? key = some rights ∧
        first ∈ lefts ∧ second ∈ rights ∧ comparison = .fields key first second exclusive := by
  unfold between
  rw [List.mem_flatMap]
  constructor
  · rintro ⟨⟨key, lefts⟩, leftMem, member⟩
    cases found : right.find? key with
    | none => simp [found] at member
    | some rights =>
        simp only [found, List.mem_flatMap, List.mem_map] at member
        rcases member with ⟨first, firstMem, second, secondMem, rfl⟩
        exact ⟨key, lefts, rights, first, second, leftMem, found, firstMem, secondMem, rfl⟩
  · rintro ⟨key, lefts, rights, first, second, leftMem, found, firstMem, secondMem, rfl⟩
    refine ⟨(key, lefts), leftMem, ?_⟩
    simp only [found, List.mem_flatMap, List.mem_map]
    exact ⟨first, firstMem, second, secondMem, rfl⟩

namespace Grouping

/-- A record under its response key. -/
def Holds (grouping : Grouping) (record : FieldRecord) : Prop :=
  ∃ records, grouping.fields.find? record.field.responseKey = some records ∧ record ∈ records

theorem holds_ofSelectionSet_iff {schema : Schema} {owner : SchemaType} {selections : SelectionSet}
    {record : FieldRecord} :
    (ofSelectionSet schema owner selections).Holds record ↔
      record ∈ recordsIn schema owner selections.items := by
  unfold Holds
  rw [fields_ofSelectionSet]
  constructor
  · rintro ⟨records, found, member⟩
    rcases (OrderedMap.find?_grouped_iff _).mp found with ⟨rfl, _⟩
    exact List.mem_of_mem_filter member
  · intro member
    exact OrderedMap.exists_find?_grouped (fun record => record.field.responseKey) member

theorem holds_of_mem {grouping : Grouping} (known : grouping.IsKnown context) {key : String}
    {records : List FieldRecord} {record : FieldRecord}
    (group : (key, records) ∈ grouping.fields) (member : record ∈ records) :
    grouping.Holds record ∧ record.field.responseKey = key := by
  rcases known with rfl | ⟨owner, selections, _, rfl⟩
  · cases group
  · rw [fields_ofSelectionSet] at group
    have distinct := OrderedMap.nodup_keys_grouped (fun record => record.field.responseKey)
      (recordsIn context.schema owner selections.items)
    have sameKey : record.field.responseKey = key := by
      rcases (OrderedMap.mem_grouped_iff _).mp group with ⟨rfl, _⟩
      simpa using List.of_mem_filter member
    subst key
    refine ⟨⟨records, ?_, member⟩, rfl⟩
    rw [fields_ofSelectionSet]
    exact OrderedMap.find?_of_mem distinct group

/-- What a grouping of an opened set holds and spreads is known to the walk. -/
theorem IsKnown.isMet {grouping : Grouping} (known : grouping.IsKnown context)
    {record : FieldRecord} (holds : grouping.Holds record) : record.IsMet context := by
  rcases known with rfl | ⟨owner, selections, opens, rfl⟩
  · rcases holds with ⟨records, found, _⟩
    cases found
  · rw [holds_ofSelectionSet_iff] at holds
    exact (inExpansion_of_mem_recordsIn holds).isMet opens.visits

theorem IsKnown.spreads_subset {grouping : Grouping} (known : grouping.IsKnown context) :
    grouping.spreads ⊆ context.document.spreadNames := by
  rcases known with rfl | ⟨owner, selections, opens, rfl⟩
  · exact List.nil_subset _
  · rw [spreads_ofSelectionSet]
    exact opens.spreads_subset

end Grouping

/-- Comparing the fields of two groupings compares what they hold under equal keys. -/
theorem mem_between_iff_holds {left right : Grouping} (leftKnown : left.IsKnown context)
    (rightKnown : right.IsKnown context) {exclusive : Bool} {comparison : Comparison} :
    comparison ∈ between left.fields right.fields exclusive ↔
      ∃ first second, left.Holds first ∧ right.Holds second ∧
        first.field.responseKey = second.field.responseKey ∧
        comparison = .fields first.field.responseKey first second exclusive := by
  rw [mem_between_iff]
  constructor
  · rintro ⟨key, lefts, rights, first, second, leftMem, found, firstMem, secondMem, rfl⟩
    rcases Grouping.holds_of_mem leftKnown leftMem firstMem with ⟨firstHolds, rfl⟩
    rcases Grouping.holds_of_mem rightKnown (OrderedMap.mem_of_find? found) secondMem with
      ⟨secondHolds, sameKey⟩
    exact ⟨first, second, firstHolds, secondHolds, sameKey.symm, rfl⟩
  · rintro ⟨first, second, ⟨lefts, leftFound, firstMem⟩, ⟨rights, rightFound, secondMem⟩, sameKey,
      rfl⟩
    rw [← sameKey] at rightFound
    exact ⟨_, lefts, rights, first, second, OrderedMap.mem_of_find? leftFound, rightFound, firstMem,
      secondMem, rfl⟩

theorem isKnown_ofFragment {name : String} {fragment : FragmentDefinition} {type : SchemaType}
    (found : fragmentWithType? context name = some (fragment, type)) :
    (Grouping.ofSelectionSet context.schema type fragment.selections).IsKnown context :=
  .inr ⟨type, fragment.selections, .ofFragmentWithType found, rfl⟩

/-- The selections of a met field are opened at the type it returns. -/
theorem FieldRecord.IsMet.opens {record : FieldRecord} (met : record.IsMet context)
    {owner : SchemaType} (returns : record.returnType? context.schema = some owner) :
    ∀ set, record.selections = some set → Opens context owner set := by
  intro set selects
  exact .ofField met returns selects

theorem FieldRecord.IsMet.isKnown {record : FieldRecord} (met : record.IsMet context)
    {owner : SchemaType} (returns : record.returnType? context.schema = some owner) :
    (groupingOn context.schema owner record.selections).IsKnown context := by
  cases selects : record.selections with
  | none => exact .inl rfl
  | some set => exact .inr ⟨owner, set, met.opens returns set selects, rfl⟩

theorem isKnown_of_mem_betweenSelections {left right : Grouping}
    (leftKnown : left.IsKnown context) (rightKnown : right.IsKnown context) {exclusive : Bool}
    {comparison : Comparison} (member : comparison ∈ betweenSelections left right exclusive) :
    comparison.IsKnown context := by
  simp only [betweenSelections, List.mem_append, List.mem_map, List.mem_flatMap] at member
  rcases member with ((member | ⟨name, nameMem, rfl⟩) | ⟨name, nameMem, rfl⟩)
    | ⟨first, firstMem, second, secondMem, rfl⟩
  · rcases (mem_between_iff_holds leftKnown rightKnown).mp member with
      ⟨first, second, firstHolds, secondHolds, _, rfl⟩
    exact ⟨leftKnown.isMet firstHolds, rightKnown.isMet secondHolds⟩
  · exact ⟨rightKnown, leftKnown.spreads_subset nameMem⟩
  · exact ⟨leftKnown, rightKnown.spreads_subset nameMem⟩
  · exact ⟨leftKnown.spreads_subset firstMem, rightKnown.spreads_subset secondMem⟩

/-- A known comparison leads to known ones. -/
theorem Comparison.IsKnown.next {comparison : Comparison} (known : comparison.IsKnown context)
    {following : Comparison} (member : following ∈ comparison.next context) :
    following.IsKnown context := by
  cases comparison with
  | fields key left right exclusive =>
      rcases known with ⟨leftMet, rightMet⟩
      simp only [Comparison.next] at member
      split at member
      · rename_i leftType rightType leftReturns rightReturns
        exact isKnown_of_mem_betweenSelections (leftMet.isKnown leftReturns)
          (rightMet.isKnown rightReturns) member
      · cases member
  | withFragment grouping fragment exclusive =>
      rcases known with ⟨groupingKnown, _⟩
      simp only [Comparison.next] at member
      split at member
      · cases member
      · rename_i definition type found
        have otherKnown := isKnown_ofFragment found
        rcases List.mem_append.mp member with member | member
        · rcases (mem_between_iff_holds groupingKnown otherKnown).mp member with
            ⟨first, second, firstHolds, secondHolds, _, rfl⟩
          exact ⟨groupingKnown.isMet firstHolds, otherKnown.isMet secondHolds⟩
        · rcases List.mem_map.mp member with ⟨name, nameMem, rfl⟩
          exact ⟨groupingKnown, otherKnown.spreads_subset nameMem⟩
  | fragments left right exclusive =>
      rcases known with ⟨leftKnown, rightKnown⟩
      simp only [Comparison.next] at member
      split at member
      · rename_i leftDefinition leftType rightDefinition rightType leftFound rightFound
        have leftGroup := isKnown_ofFragment leftFound
        have rightGroup := isKnown_ofFragment rightFound
        simp only [List.mem_append, List.mem_map] at member
        rcases member with (member | ⟨name, nameMem, rfl⟩) | ⟨name, nameMem, rfl⟩
        · rcases (mem_between_iff_holds leftGroup rightGroup).mp member with
            ⟨first, second, firstHolds, secondHolds, _, rfl⟩
          exact ⟨leftGroup.isMet firstHolds, rightGroup.isMet secondHolds⟩
        · exact ⟨leftKnown, rightGroup.spreads_subset nameMem⟩
        · exact ⟨leftGroup.spreads_subset nameMem, rightKnown⟩
      · cases member

/-! ## One comparison -/

/-- The comparisons have one entry in the memory. -/
def Comparison.SameEntry : Comparison → Comparison → Prop
  | .withFragment grouping fragment exclusive, .withFragment other otherFragment otherExclusive =>
      (grouping.set, fragment, exclusive) = (other.set, otherFragment, otherExclusive)
  | .fragments left right exclusive, .fragments otherLeft otherRight otherExclusive =>
      sortedPair left right = sortedPair otherLeft otherRight ∧ exclusive = otherExclusive
  | _, _ => False

theorem sortedPair_eq_or (left right : String) :
    sortedPair left right = (left, right) ∨ sortedPair left right = (right, left) := by
  unfold sortedPair
  split
  · exact .inl rfl
  · exact .inr rfl

namespace Memory

theorem RemembersSame.remembers_iff {memory other : Memory} (same : memory.RemembersSame other)
    (comparison : Comparison) : other.Remembers comparison ↔ memory.Remembers comparison := by
  cases comparison <;> simp [Remembers, same.1, same.2]

theorem RemembersSame.trans {first second third : Memory} (before : first.RemembersSame second)
    (after : second.RemembersSame third) : first.RemembersSame third :=
  ⟨after.1.trans before.1, after.2.trans before.2⟩

theorem remembers_withFragment {memory : Memory} {grouping : Grouping} {fragment : String}
    {exclusive : Bool} (other : Comparison) :
    Remembers
        { memory with
          comparedWithFragment :=
            (grouping.set, fragment, exclusive) :: memory.comparedWithFragment } other ↔
      memory.Remembers other ∨
        (Comparison.withFragment grouping fragment exclusive).SameEntry other := by
  cases other with
  | fields key left right exclusive => simp [Remembers, Comparison.SameEntry]
  | withFragment otherGrouping otherFragment otherExclusive =>
      simp only [Remembers, Comparison.SameEntry, List.mem_cons]
      rw [or_comm, eq_comm]
  | fragments left right exclusive => simp [Remembers, Comparison.SameEntry]

theorem remembers_fragments {memory : Memory} {left right : String} {exclusive : Bool}
    {pairs : Nat} (other : Comparison) :
    Remembers
        { memory with
          comparedFragments :=
            ((sortedPair left right).1, (sortedPair left right).2, exclusive)
              :: memory.comparedFragments
          fragmentPairsCompared := pairs } other ↔
      memory.Remembers other ∨
        (Comparison.fragments left right exclusive).SameEntry other := by
  cases other with
  | fields key left right exclusive => simp [Remembers, Comparison.SameEntry]
  | withFragment grouping fragment exclusive => simp [Remembers, Comparison.SameEntry]
  | fragments otherLeft otherRight otherExclusive =>
      simp only [Remembers, Comparison.SameEntry, List.mem_cons, Prod.ext_iff]
      constructor
      · rintro (same | ⟨first, second, third⟩ | member)
        · exact .inl (.inl same)
        · exact .inr ⟨⟨first.symm, second.symm⟩, third.symm⟩
        · exact .inl (.inr member)
      · rintro ((same | member) | ⟨⟨first, second⟩, third⟩)
        · exact .inl same
        · exact .inr (.inr member)
        · exact .inr (.inl ⟨first.symm, second.symm, third.symm⟩)

end Memory

/-- A comparison that is remembered changes nothing. -/
theorem step_of_remembers {memory : Memory} {comparison : Comparison}
    (remembered : memory.Remembers comparison) : step context memory comparison = { memory } := by
  cases comparison with
  | fields key left right exclusive => cases remembered
  | withFragment grouping fragment exclusive =>
      have entry : memory.comparedWithFragment.contains (grouping.set, fragment, exclusive) = true :=
        List.contains_iff_mem.mpr remembered
      simp only [step, compareWithFragment]
      rw [if_pos entry]
  | fragments left right exclusive =>
      simp only [step, compareFragments]
      split
      · rfl
      · rename_i distinct
        have entry : memory.comparedFragments.contains
            ((sortedPair left right).1, (sortedPair left right).2, exclusive) = true :=
          List.contains_iff_mem.mpr (remembered.resolve_left distinct)
        rw [if_pos entry]

/-- What a comparison that is not remembered does. -/
structure Comparison.IsMade (context : RuleContext) (memory : Memory) (comparison : Comparison)
    (outcome : Outcome) : Prop where
  found : outcome.found = comparison.found
  next : outcome.next = comparison.next context
  sound : outcome.memory.IsSound context
  remembers : ∀ other, outcome.memory.Remembers other ↔
    memory.Remembers other ∨ comparison.SameEntry other

theorem compareFields_isMade (numbered : context.document.HasDistinctNumbers) {memory : Memory}
    (sound : memory.IsSound context) {key : String} {left right : FieldRecord} {exclusive : Bool}
    (known : (Comparison.fields key left right exclusive).IsKnown context) :
    (Comparison.fields key left right exclusive).IsMade context memory
      (compareFields context memory key left right exclusive) := by
  rcases known with ⟨leftMet, rightMet⟩
  have unchanged : ∀ {after : Memory}, memory.RemembersSame after → ∀ other,
      after.Remembers other ↔
        memory.Remembers other ∨ (Comparison.fields key left right exclusive).SameEntry other := by
    intro after same other
    rw [same.remembers_iff]
    simp [Comparison.SameEntry]
  unfold compareFields
  cases leftReturns : left.returnType? context.schema with
  | none =>
      refine ⟨?_, ?_, sound, unchanged ⟨rfl, rfl⟩⟩
      · simp [Comparison.found]
      · simp [Comparison.next, leftReturns]
  | some leftType =>
      cases rightReturns : right.returnType? context.schema with
      | none =>
          refine ⟨?_, ?_, sound, unchanged ⟨rfl, rfl⟩⟩
          · simp [Comparison.found]
          · simp [Comparison.next, leftReturns, rightReturns]
      | some rightType =>
          rcases Memory.grouping_spec numbered sound (leftMet.opens leftReturns) with
            ⟨leftGrouping, leftSound, leftSame⟩
          rcases Memory.grouping_spec numbered leftSound (rightMet.opens rightReturns) with
            ⟨rightGrouping, rightSound, rightSame⟩
          refine ⟨?_, ?_, rightSound, unchanged (leftSame.trans rightSame)⟩
          · simp [Comparison.found]
          · simp [Comparison.next, leftReturns, rightReturns, leftGrouping, rightGrouping]

theorem compareWithFragment_isMade (numbered : context.document.HasDistinctNumbers)
    {memory : Memory} (sound : memory.IsSound context) {grouping : Grouping} {fragment : String}
    {exclusive : Bool} (fresh : ¬memory.Remembers (.withFragment grouping fragment exclusive)) :
    (Comparison.withFragment grouping fragment exclusive).IsMade context memory
      (compareWithFragment context memory grouping fragment exclusive) := by
  have absent : memory.comparedWithFragment.contains (grouping.set, fragment, exclusive) = false := by
    have notMem : (grouping.set, fragment, exclusive) ∉ memory.comparedWithFragment := fresh
    simpa using notMem
  simp only [compareWithFragment, absent, Bool.false_eq_true, if_false]
  cases found : fragmentWithType? context fragment with
  | none =>
      refine ⟨rfl, ?_, sound, Memory.remembers_withFragment⟩
      simp [Comparison.next, found]
  | some fragmentAndType =>
      rcases fragmentAndType with ⟨definition, type⟩
      have entered : Memory.IsSound context
          { memory with
            comparedWithFragment :=
              (grouping.set, fragment, exclusive) :: memory.comparedWithFragment } := sound
      rcases Memory.grouping_spec numbered entered (Opens.ofFragmentWithType found).of_some with
        ⟨grouped, groupedSound, groupedSame⟩
      refine ⟨rfl, ?_, groupedSound, fun other =>
        (groupedSame.remembers_iff other).trans (Memory.remembers_withFragment other)⟩
      simp [Comparison.next, found, grouped, groupingOn]

theorem compareFragments_isMade (numbered : context.document.HasDistinctNumbers)
    {memory : Memory} (sound : memory.IsSound context) {left right : String}
    {exclusive : Bool} (fresh : ¬memory.Remembers (.fragments left right exclusive)) :
    (Comparison.fragments left right exclusive).IsMade context memory
      (compareFragments context memory left right exclusive) := by
  rcases not_or.mp fresh with ⟨distinct, notMem⟩
  have absent : memory.comparedFragments.contains
      ((sortedPair left right).1, (sortedPair left right).2, exclusive) = false := by
    simpa using notMem
  simp only [compareFragments, distinct, absent, Bool.false_eq_true, if_false]
  cases leftFound : fragmentWithType? context left with
  | none =>
      refine ⟨rfl, ?_, sound, Memory.remembers_fragments⟩
      simp [Comparison.next, leftFound]
  | some leftFragment =>
      cases rightFound : fragmentWithType? context right with
      | none =>
          refine ⟨rfl, ?_, sound, Memory.remembers_fragments⟩
          simp [Comparison.next, leftFound, rightFound]
      | some rightFragment =>
          rcases leftFragment with ⟨leftDefinition, leftType⟩
          rcases rightFragment with ⟨rightDefinition, rightType⟩
          have entered : Memory.IsSound context
              { memory with
                comparedFragments :=
                  ((sortedPair left right).1, (sortedPair left right).2, exclusive)
                    :: memory.comparedFragments
                fragmentPairsCompared := memory.fragmentPairsCompared + 1 } := sound
          rcases Memory.grouping_spec numbered entered (Opens.ofFragmentWithType leftFound).of_some
            with ⟨leftGrouping, leftSound, leftSame⟩
          rcases Memory.grouping_spec numbered leftSound
            (Opens.ofFragmentWithType rightFound).of_some with
            ⟨rightGrouping, rightSound, rightSame⟩
          refine ⟨rfl, ?_, rightSound, fun other => ((leftSame.trans rightSame).remembers_iff
            other).trans (Memory.remembers_fragments other)⟩
          simp [Comparison.next, leftFound, rightFound, leftGrouping, rightGrouping, groupingOn]

/-- A step on a comparison that is not remembered makes it. -/
theorem step_isMade (numbered : context.document.HasDistinctNumbers) {memory : Memory}
    (sound : memory.IsSound context) {comparison : Comparison}
    (known : comparison.IsKnown context) (fresh : ¬memory.Remembers comparison) :
    comparison.IsMade context memory (step context memory comparison) := by
  cases comparison with
  | fields key left right exclusive => exact compareFields_isMade numbered sound known
  | withFragment grouping fragment exclusive => exact compareWithFragment_isMade numbered sound fresh
  | fragments left right exclusive => exact compareFragments_isMade numbered sound fresh

end Merging
end GraphQL

import GraphQL.Proofs.Fragments
import GraphQL.Proofs.Merging.Exploration
import Mathlib.Data.Finset.Prod

/-!
# The search for conflicts ends

`Explores` is the search with nothing to bound it: every comparison is made, and all that it leads to
is explored before the next one. Its derivations are searches that have come to their end. From every
set that a walk opens there is one, since a chain of comparisons is shorter than the bound of the
search, and it ends with what the bounded search computes.

The search counts the pairs of fragments that it compares. The memory keeps every such pair once, in
one order of its names, with each of the two flags. So the count is at most the number of ordered
pairs of different names.
-/

namespace GraphQL

/-- What a rule remembers after some events. -/
def Rule.memoryAfter (rule : Rule) (context : RuleContext) (memory : rule.Memory)
    (events : List Event) : rule.Memory :=
  events.foldl (fun memory event => (rule.watch context memory event).1) memory

namespace Merging

variable {context : RuleContext}

/-! ## The search without a bound -/

/-- Making comparisons one after the other, each with all that it leads to. -/
inductive Explores (context : RuleContext) :
    Memory × List Diagnostic → List Comparison → Memory × List Diagnostic → Prop where
  | nil {state : Memory × List Diagnostic} : Explores context state [] state
  | cons {memory : Memory} {found : List Diagnostic} {comparison : Comparison}
      {rest : List Comparison} {between after : Memory × List Diagnostic}
      (inner : Explores context
        ((step context memory comparison).memory, found ++ (step context memory comparison).found)
        (step context memory comparison).next between)
      (others : Explores context between rest after) :
      Explores context (memory, found) (comparison :: rest) after

/-- Explorations of the members of a list, one after the other, explore the list. -/
theorem Explores.foldl {comparisons : List Comparison}
    {explore : Comparison → Memory × List Diagnostic → Memory × List Diagnostic}
    {start : Memory × List Diagnostic} (sound : start.1.IsSound context)
    (explores : ∀ comparison ∈ comparisons, ∀ state : Memory × List Diagnostic,
      state.1.IsSound context →
      (∀ other, start.1.Remembers other → state.1.Remembers other) →
      FollowsUp context [comparison] state (explore comparison state) ∧
        Explores context state [comparison] (explore comparison state)) :
    Explores context start comparisons
      (comparisons.foldl (fun state next => explore next state) start) := by
  induction comparisons generalizing start with
  | nil => exact .nil
  | cons comparison rest ih =>
      rcases explores comparison List.mem_cons_self start sound fun _ => id with ⟨first, explored⟩
      rcases start with ⟨memory, found⟩
      rcases explored with _ | ⟨inner, nothing⟩
      cases nothing
      refine .cons inner (ih first.sound ?_)
      intro other member state stateSound keeps
      exact explores other (List.mem_cons_of_mem _ member) state stateSound
        fun _ remembered => keeps _ (first.keeps _ remembered)

/-- Where chains stay below a bound, the bounded search is the search. -/
theorem explores_explore (numbered : context.document.HasDistinctNumbers) {depth : Nat}
    {comparison : Comparison} {state : Memory × List Diagnostic} (sound : state.1.IsSound context)
    (known : comparison.IsKnown context) (enough : chainBound context state.1 comparison < depth) :
    Explores context state [comparison] (explore context depth comparison state) := by
  induction depth generalizing comparison state with
  | zero => omega
  | succ depth ih =>
      rcases state with ⟨memory, found⟩
      simp only [explore]
      refine .cons ?_ .nil
      by_cases remembered : memory.Remembers comparison
      · simp only [step_of_remembers remembered, List.foldl_nil]
        exact .nil
      · have made := step_isMade numbered sound known remembered
        apply Explores.foldl made.sound
        intro next member later laterSound keeps
        simp only [made.next] at member
        have shorter : chainBound context (step context memory comparison).memory next <
            chainBound context memory comparison :=
          chainBound_lt_of_isMade known remembered made member
        have fewer : chainBound context later.1 next ≤
            chainBound context (step context memory comparison).memory next :=
          chainBound_le_of_remembers keeps next
        have enoughHere : chainBound context memory comparison < depth + 1 := enough
        have below : chainBound context later.1 next < depth := by omega
        exact ⟨explore_followsUp numbered laterSound (known.next member) below,
          ih laterSound (known.next member) below⟩

/-- From a set that the walk opens the search ends. -/
theorem explores_exploreSet (numbered : context.document.HasDistinctNumbers) {memory : Memory}
    (sound : memory.IsSound context) {owner : SchemaType} {selections : SelectionSet}
    (opens : Opens context owner selections) :
    Explores context ((memory.grouping context.schema owner (some selections)).2, [])
      (within (memory.grouping context.schema owner (some selections)).1)
      (exploreSet context memory owner selections) := by
  have opened : ∀ set, some selections = some set → Opens context owner set := by
    intro set same
    cases same
    exact opens
  rcases Memory.grouping_spec numbered sound opened with ⟨sameGrouping, groupingSound, _⟩
  have groupingKnown : (Grouping.ofSelectionSet context.schema owner selections).IsKnown context :=
    .inr ⟨owner, selections, opens, rfl⟩
  apply Explores.foldl groupingSound
  intro comparison member state stateSound _
  simp only [sameGrouping, groupingOn] at member
  have known := isKnown_of_mem_within groupingKnown member
  have below : chainBound context state.1 comparison < depthBound context.document :=
    chainBound_lt_depthBound known
  exact ⟨explore_followsUp numbered stateSound known below,
    explores_explore numbered stateSound known below⟩

theorem explores_watch (numbered : context.document.HasDistinctNumbers) {memory : Memory}
    (sound : memory.IsSound context) {event : Event}
    (met : event ∈ Event.ofDocument context.schema context.document) {owner : SchemaType}
    {selections : SelectionSet} (opened : openedSet? event = some (owner, selections)) :
    Explores context ((memory.grouping context.schema owner (some selections)).2, [])
      (within (memory.grouping context.schema owner (some selections)).1)
      (Rule.fieldsWillMerge.watch context memory event) := by
  have watched : Rule.fieldsWillMerge.watch context memory event =
      exploreSet context memory owner selections := by
    simp only [Rule.fieldsWillMerge, opened]
  rw [watched]
  exact explores_exploreSet numbered sound ⟨event, met, opened⟩

/-- At every event of a walk the memory holds the right groupings. -/
theorem isSound_memoryAfter (numbered : context.document.HasDistinctNumbers)
    {events : List Event} (met : events ⊆ Event.ofDocument context.schema context.document)
    {memory : Memory} (sound : memory.IsSound context) :
    Memory.IsSound context (Rule.fieldsWillMerge.memoryAfter context memory events) := by
  induction events generalizing memory with
  | nil => exact sound
  | cons event rest ih =>
      rcases List.cons_subset.mp met with ⟨eventMet, restMet⟩
      exact ih restMet (watch_followsUp numbered sound eventMet).sound

/-! ## Pairs of fragments -/

/-- Both fragments of an entry are defined, on types that the schema knows. -/
def isComparable (context : RuleContext) (entry : String × String × Bool) : Bool :=
  (fragmentWithType? context entry.1).isSome && (fragmentWithType? context entry.2.1).isSome

/-- Every pair of fragments is kept once for each flag, and the pairs that could be compared have
been counted. -/
structure Memory.CountsPairs (context : RuleContext) (memory : Memory) : Prop where
  nodup : memory.comparedFragments.Nodup
  ordered : ∀ entry ∈ memory.comparedFragments, entry.1 ≤ entry.2.1 ∧ entry.1 ≠ entry.2.1
  counted : memory.fragmentPairsCompared =
    (memory.comparedFragments.filter (isComparable context)).length

/-- The pairs of fragments and their number are the same. -/
def Memory.SamePairs (memory other : Memory) : Prop :=
  other.comparedFragments = memory.comparedFragments ∧
    other.fragmentPairsCompared = memory.fragmentPairsCompared

theorem Memory.CountsPairs.of_samePairs {memory other : Memory}
    (counts : memory.CountsPairs context) (same : memory.SamePairs other) :
    other.CountsPairs context := by
  rcases same with ⟨sameEntries, sameCount⟩
  refine ⟨?_, ?_, ?_⟩
  · simpa only [sameEntries] using counts.nodup
  · simpa only [sameEntries] using counts.ordered
  · simpa only [sameEntries, sameCount] using counts.counted

theorem Memory.samePairs_grouping (memory : Memory) (schema : Schema) (owner : SchemaType)
    (selections : Option SelectionSet) :
    memory.SamePairs (memory.grouping schema owner selections).2 := by
  cases selections with
  | none => exact ⟨rfl, rfl⟩
  | some set =>
      simp only [grouping]
      split <;> exact ⟨rfl, rfl⟩

theorem sortedPair_ordered {left right : String} (distinct : left ≠ right) :
    (sortedPair left right).1 ≤ (sortedPair left right).2 ∧
      (sortedPair left right).1 ≠ (sortedPair left right).2 := by
  unfold sortedPair
  split
  · rename_i inOrder
    exact ⟨inOrder, distinct⟩
  · rename_i outOfOrder
    exact ⟨(String.le_total left right).resolve_left outOfOrder, distinct.symm⟩

theorem isComparable_sortedPair (left right : String) (exclusive : Bool) :
    isComparable context ((sortedPair left right).1, (sortedPair left right).2, exclusive) =
      ((fragmentWithType? context left).isSome && (fragmentWithType? context right).isSome) := by
  rcases sortedPair_eq_or left right with pair | pair
  · simp [isComparable, pair]
  · simp [isComparable, pair, Bool.and_comm]

/-- Remembering a pair that is new counts it if it can be compared. -/
theorem Memory.CountsPairs.remember {memory after : Memory} (counts : memory.CountsPairs context)
    {left right : String} (distinct : left ≠ right) {exclusive : Bool}
    (fresh : ((sortedPair left right).1, (sortedPair left right).2, exclusive) ∉
      memory.comparedFragments)
    (entries : after.comparedFragments =
      ((sortedPair left right).1, (sortedPair left right).2, exclusive)
        :: memory.comparedFragments)
    (count : after.fragmentPairsCompared = memory.fragmentPairsCompared +
      if (fragmentWithType? context left).isSome && (fragmentWithType? context right).isSome then 1
      else 0) : after.CountsPairs context where
  nodup := by
    simp only [entries, List.nodup_cons]
    exact ⟨fresh, counts.nodup⟩
  ordered := by
    intro entry member
    simp only [entries, List.mem_cons] at member
    rcases member with rfl | member
    · exact sortedPair_ordered distinct
    · exact counts.ordered entry member
  counted := by
    have counted := counts.counted
    simp only [entries, count, List.filter_cons, isComparable_sortedPair]
    split
    · simp [counted]
    · simp [counted]

theorem countsPairs_compareFragments {memory : Memory} (counts : memory.CountsPairs context)
    (left right : String) (exclusive : Bool) :
    (compareFragments context memory left right exclusive).memory.CountsPairs context := by
  unfold compareFragments
  split
  · exact counts
  · rename_i distinct
    simp only
    split
    · exact counts
    · rename_i unknown
      have fresh : ((sortedPair left right).1, (sortedPair left right).2, exclusive) ∉
          memory.comparedFragments := by
        simpa using unknown
      cases leftFound : fragmentWithType? context left with
      | none => exact counts.remember distinct fresh rfl (by simp [leftFound])
      | some leftFragment =>
          cases rightFound : fragmentWithType? context right with
          | none => exact counts.remember distinct fresh rfl (by simp [leftFound, rightFound])
          | some rightFragment =>
              refine Memory.CountsPairs.of_samePairs ?_ (Memory.samePairs_grouping _ _ _ _)
              refine Memory.CountsPairs.of_samePairs ?_ (Memory.samePairs_grouping _ _ _ _)
              exact counts.remember distinct fresh rfl (by simp [leftFound, rightFound])

theorem countsPairs_step {memory : Memory} (counts : memory.CountsPairs context)
    (comparison : Comparison) : (step context memory comparison).memory.CountsPairs context := by
  cases comparison with
  | fields key left right exclusive =>
      simp only [step, compareFields]
      split
      · refine Memory.CountsPairs.of_samePairs ?_ (Memory.samePairs_grouping _ _ _ _)
        exact counts.of_samePairs (Memory.samePairs_grouping _ _ _ _)
      · exact counts
  | withFragment grouping fragment exclusive =>
      simp only [step, compareWithFragment]
      split
      · exact counts
      · have remembered : Memory.CountsPairs context
            { memory with
              comparedWithFragment :=
                (grouping.set, fragment, exclusive) :: memory.comparedWithFragment } :=
          counts.of_samePairs ⟨rfl, rfl⟩
        split
        · exact remembered
        · exact remembered.of_samePairs (Memory.samePairs_grouping _ _ _ _)
  | fragments left right exclusive => exact countsPairs_compareFragments counts left right exclusive

theorem countsPairs_explore {depth : Nat} {comparison : Comparison}
    {state : Memory × List Diagnostic} (counts : state.1.CountsPairs context) :
    (explore context depth comparison state).1.CountsPairs context := by
  induction depth generalizing comparison state with
  | zero => exact counts
  | succ depth ih =>
      simp only [explore]
      refine List.foldlRecOn
        (motive := fun state : Memory × List Diagnostic => state.1.CountsPairs context) _ _
        (countsPairs_step counts comparison) ?_
      intro later laterCounts next _
      exact ih laterCounts

/-- Whatever the search meets, in the walk of a document or not, it compares no pair twice. -/
theorem countsPairs_memoryAfter {memory : Memory} (counts : memory.CountsPairs context)
    (events : List Event) :
    Memory.CountsPairs context (Rule.fieldsWillMerge.memoryAfter context memory events) := by
  refine List.foldlRecOn events _ counts ?_
  intro later laterCounts event _
  simp only [Rule.fieldsWillMerge]
  split
  · exact laterCounts
  · rename_i owner selections _
    have grouped := laterCounts.of_samePairs
      (later.samePairs_grouping context.schema owner (some selections))
    refine List.foldlRecOn
      (motive := fun state : Memory × List Diagnostic => state.1.CountsPairs context) _ _ grouped ?_
    intro state stateCounts next _
    exact countsPairs_explore stateCounts

theorem countsPairs_initial : Memory.CountsPairs context {} :=
  ⟨List.nodup_nil, fun _ member => absurd member List.not_mem_nil, rfl⟩

end Merging

/-- The names of the fragments of a document, each once. -/
def Document.fragmentNames (document : Document) : Finset String :=
  (document.fragments.map (·.name.text)).toFinset

namespace Merging

theorem mem_fragmentNames_of_isSome {name : String}
    (known : (fragmentWithType? context name).isSome) : name ∈ context.document.fragmentNames := by
  rcases Option.isSome_iff_exists.mp known with ⟨⟨definition, type⟩, found⟩
  rcases fragmentWithType?_eq_some_iff.mp found with ⟨defined, _⟩
  rcases Document.fragment?_name defined with ⟨member, rfl⟩
  exact List.mem_toFinset.mpr (List.mem_map_of_mem member)

/-- The ordered pair that stands for an entry: the flag decides which name comes first. -/
def orderedPair (entry : String × String × Bool) : String × String :=
  if entry.2.2 then (entry.1, entry.2.1) else (entry.2.1, entry.1)

theorem orderedPair_injective {entry other : String × String × Bool}
    (ordered : entry.1 ≤ entry.2.1 ∧ entry.1 ≠ entry.2.1)
    (otherOrdered : other.1 ≤ other.2.1 ∧ other.1 ≠ other.2.1)
    (same : orderedPair entry = orderedPair other) : entry = other := by
  rcases entry with ⟨left, right, exclusive⟩
  rcases other with ⟨otherLeft, otherRight, otherExclusive⟩
  have antisymm : ∀ {left right : String}, left ≤ right → right ≤ left → left = right :=
    fun before after => String.le_antisymm before after
  cases exclusive <;> cases otherExclusive <;>
    simp only [orderedPair, Bool.false_eq_true, if_false, if_true, Prod.mk.injEq] at same <;>
    rcases same with ⟨rfl, rfl⟩
  · rfl
  · exact absurd (antisymm ordered.1 otherOrdered.1) ordered.2
  · exact absurd (antisymm ordered.1 otherOrdered.1) ordered.2
  · rfl

/-- The search compares at most as many pairs of fragments as there are ordered pairs of different
names. -/
theorem Memory.CountsPairs.fragmentPairsCompared_le {memory : Memory}
    (counts : memory.CountsPairs context) :
    memory.fragmentPairsCompared ≤
      context.document.fragmentNames.card * (context.document.fragmentNames.card - 1) := by
  let compared := memory.comparedFragments.filter (isComparable context)
  have distinct : (compared.map orderedPair).Nodup := by
    refine List.Nodup.map_on ?_ (counts.nodup.filter _)
    intro entry member other otherMem same
    exact orderedPair_injective (counts.ordered entry (List.mem_filter.mp member).1)
      (counts.ordered other (List.mem_filter.mp otherMem).1) same
  have inside : (compared.map orderedPair).toFinset ⊆ context.document.fragmentNames.offDiag := by
    intro pair member
    rcases List.mem_map.mp (List.mem_toFinset.mp member) with ⟨entry, entryMem, rfl⟩
    rcases List.mem_filter.mp entryMem with ⟨kept, comparable⟩
    simp only [isComparable, Bool.and_eq_true] at comparable
    have leftKnown := mem_fragmentNames_of_isSome comparable.1
    have rightKnown := mem_fragmentNames_of_isSome comparable.2
    have different := (counts.ordered entry kept).2
    simp only [Finset.mem_offDiag, orderedPair]
    split
    · exact ⟨leftKnown, rightKnown, different⟩
    · exact ⟨rightKnown, leftKnown, different.symm⟩
  have fewer := Finset.card_le_card inside
  simp only [List.toFinset_card_of_nodup distinct, List.length_map, Finset.offDiag_card] at fewer
  have counted : memory.fragmentPairsCompared = compared.length := counts.counted
  simp only [Nat.mul_sub, Nat.mul_one]
  omega

end Merging

end GraphQL

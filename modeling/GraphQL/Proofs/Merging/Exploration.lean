import GraphQL.Proofs.Merging.Chains
import Mathlib.Logic.Relation

/-!
# What the search leaves behind

A comparison is handled if it is remembered, or if it finds nothing and all that it leads to is
handled. While the search is on its way, what is remembered can still lead to comparisons that are
to be made; so the invariant is about what one exploration adds to the memory. All that it adds has
been followed up when it returns, and the comparison it started with is handled. At the end of a
walk the memory holds nothing that was not followed up.
-/

namespace GraphQL
namespace Merging

variable {context : RuleContext}

/-- The comparison is remembered, or it finds nothing and all that it leads to is handled. -/
inductive Handled (context : RuleContext) (memory : Memory) : Comparison → Prop where
  | remembered {comparison : Comparison} (known : memory.Remembers comparison) :
      Handled context memory comparison
  | made {comparison : Comparison} (quiet : comparison.found = [])
      (following : ∀ next ∈ comparison.next context, Handled context memory next) :
      Handled context memory comparison

/-- All that the comparison leads to is handled, for fragments in one of their two orders. -/
def Settled (context : RuleContext) (memory : Memory) (comparison : Comparison) : Prop :=
  (∀ next ∈ comparison.next context, Handled context memory next) ∨
    ∀ next ∈ comparison.swap.next context, Handled context memory next

theorem Handled.mono {memory later : Memory} {comparison : Comparison}
    (handled : Handled context memory comparison)
    (keeps : ∀ other, memory.Remembers other → later.Remembers other) :
    Handled context later comparison := by
  induction handled with
  | remembered known => exact .remembered (keeps _ known)
  | made quiet _ ih => exact .made quiet ih

theorem Settled.mono {memory later : Memory} {comparison : Comparison}
    (settled : Settled context memory comparison)
    (keeps : ∀ other, memory.Remembers other → later.Remembers other) :
    Settled context later comparison :=
  settled.imp (fun following next member => (following next member).mono keeps)
    fun following next member => (following next member).mono keeps

theorem Grouping.IsKnown.eq_of_set_eq (numbered : context.document.HasDistinctNumbers)
    {grouping other : Grouping} (known : grouping.IsKnown context)
    (otherKnown : other.IsKnown context) (same : grouping.set = other.set) : grouping = other := by
  rcases known with rfl | ⟨owner, selections, opens, rfl⟩
  · rcases otherKnown with rfl | ⟨owner, selections, _, rfl⟩
    · rfl
    · rw [Grouping.set_ofSelectionSet] at same
      cases same
  · rcases otherKnown with rfl | ⟨otherOwner, otherSelections, otherOpens, rfl⟩
    · rw [Grouping.set_ofSelectionSet] at same
      cases same
    · simp only [Grouping.set_ofSelectionSet, Option.some.injEq] at same
      rcases opens.eq_of_id_eq numbered otherOpens same with ⟨rfl, rfl⟩
      rfl

/-- Comparisons with one entry differ at most in the order of two fragments. -/
theorem Comparison.SameEntry.eq_or_eq_swap (numbered : context.document.HasDistinctNumbers)
    {comparison other : Comparison} (same : comparison.SameEntry other)
    (known : comparison.IsKnown context) (otherKnown : other.IsKnown context) :
    other = comparison ∨ other = comparison.swap := by
  cases comparison with
  | fields key left right exclusive => cases same
  | withFragment grouping fragment exclusive =>
      cases other with
      | fields => cases same
      | fragments => cases same
      | withFragment otherGrouping otherFragment otherExclusive =>
          simp only [Comparison.SameEntry, Prod.mk.injEq] at same
          rcases same with ⟨sameSet, rfl, rfl⟩
          left
          rw [known.1.eq_of_set_eq numbered otherKnown.1 sameSet]
  | fragments left right exclusive =>
      cases other with
      | fields => cases same
      | withFragment => cases same
      | fragments otherLeft otherRight otherExclusive =>
          rcases same with ⟨samePair, rfl⟩
          rcases sortedPair_eq_or left right with pair | pair <;>
            rcases sortedPair_eq_or otherLeft otherRight with otherPair | otherPair <;>
            simp_all [Comparison.swap]

/-- The comparison leads to another one, through any number of others. -/
abbrev LeadsTo (context : RuleContext) : Comparison → Comparison → Prop :=
  Relation.ReflTransGen fun comparison following => following ∈ comparison.next context

/-- What a part of the search does that starts from some comparisons: the memory grows, and if
nothing has been found at its end, all that was added to the memory has been followed up. -/
structure FollowsUp (context : RuleContext) (comparisons : List Comparison)
    (before after : Memory × List Diagnostic) : Prop where
  sound : after.1.IsSound context
  keeps : ∀ comparison, before.1.Remembers comparison → after.1.Remembers comparison
  quiet : after.2 = [] → before.2 = []
  finds : after.2 ≠ [] → before.2 = [] →
    ∃ comparison ∈ comparisons, ∃ last, LeadsTo context comparison last ∧ last.found ≠ []
  settles : after.2 = [] → ∀ comparison : Comparison, comparison.IsKnown context →
    after.1.Remembers comparison →
      before.1.Remembers comparison ∨ Settled context after.1 comparison
  handles : after.2 = [] → ∀ comparison ∈ comparisons, Handled context after.1 comparison

namespace FollowsUp

theorem refl {state : Memory × List Diagnostic} (sound : state.1.IsSound context) :
    FollowsUp context [] state state where
  sound := sound
  keeps _ := id
  quiet := id
  finds found nothing := absurd nothing found
  settles _ _ _ := .inl
  handles _ _ member := by cases member

theorem append {first second : List Comparison} {before between after : Memory × List Diagnostic}
    (earlier : FollowsUp context first before between)
    (later : FollowsUp context second between after) :
    FollowsUp context (first ++ second) before after where
  sound := later.sound
  keeps comparison known := later.keeps comparison (earlier.keeps comparison known)
  quiet nothing := earlier.quiet (later.quiet nothing)
  finds found nothing := by
    by_cases betweenNothing : between.2 = []
    · rcases later.finds found betweenNothing with ⟨comparison, member, leads⟩
      exact ⟨comparison, List.mem_append_right _ member, leads⟩
    · rcases earlier.finds betweenNothing nothing with ⟨comparison, member, leads⟩
      exact ⟨comparison, List.mem_append_left _ member, leads⟩
  settles nothing comparison known remembered := by
    rcases later.settles nothing comparison known remembered with remembered | settled
    · rcases earlier.settles (later.quiet nothing) comparison known remembered with
        remembered | settled
      · exact .inl remembered
      · exact .inr (settled.mono later.keeps)
    · exact .inr settled
  handles nothing comparison member := by
    rcases List.mem_append.mp member with member | member
    · exact (earlier.handles (later.quiet nothing) comparison member).mono later.keeps
    · exact later.handles nothing comparison member

/-- What is remembered before the search is all that counts of it. -/
theorem ofRemembersSame {comparisons : List Comparison} {memory other : Memory}
    {found : List Diagnostic} {after : Memory × List Diagnostic}
    (follows : FollowsUp context comparisons (other, found) after)
    (same : memory.RemembersSame other) : FollowsUp context comparisons (memory, found) after where
  sound := follows.sound
  keeps comparison remembered := follows.keeps comparison ((same.remembers_iff _).mpr remembered)
  quiet := follows.quiet
  finds := follows.finds
  settles nothing comparison known remembered :=
    (follows.settles nothing comparison known remembered).imp_left (same.remembers_iff _).mp
  handles := follows.handles

/-- What has been found before stays in front. -/
theorem afterFinding {comparisons : List Comparison} {memory later : Memory}
    {found : List Diagnostic}
    (follows : FollowsUp context comparisons (memory, []) (later, found))
    (before : List Diagnostic) :
    FollowsUp context comparisons (memory, before) (later, before ++ found) where
  sound := follows.sound
  keeps := follows.keeps
  quiet nothing := (List.append_eq_nil_iff.mp nothing).1
  finds some nothing := by
    apply follows.finds _ rfl
    intro foundNothing
    exact some (List.append_eq_nil_iff.mpr ⟨nothing, foundNothing⟩)
  settles nothing := follows.settles (List.append_eq_nil_iff.mp nothing).2
  handles nothing := follows.handles (List.append_eq_nil_iff.mp nothing).2

/-- A comparison that is remembered is handled already. -/
theorem ofRemembered {state : Memory × List Diagnostic} (sound : state.1.IsSound context)
    {comparison : Comparison} (remembered : state.1.Remembers comparison) :
    FollowsUp context [comparison] state state where
  sound := sound
  keeps _ := id
  quiet := id
  finds found nothing := absurd nothing found
  settles _ _ _ := .inl
  handles _ other member := by
    rw [List.mem_singleton] at member
    subst other
    exact .remembered remembered

/-- A comparison is followed up by making it and following up what it leads to. -/
theorem ofMade (numbered : context.document.HasDistinctNumbers) {memory : Memory}
    {found : List Diagnostic} {comparison : Comparison} {outcome : Outcome}
    {after : Memory × List Diagnostic} (known : comparison.IsKnown context)
    (made : comparison.IsMade context memory outcome)
    (following : FollowsUp context outcome.next (outcome.memory, found ++ outcome.found) after) :
    FollowsUp context [comparison] (memory, found) after where
  sound := following.sound
  keeps other remembered := following.keeps other ((made.remembers other).mpr (.inl remembered))
  quiet nothing := (List.append_eq_nil_iff.mp (following.quiet nothing)).1
  finds found nothing := by
    refine ⟨comparison, List.mem_cons_self, ?_⟩
    by_cases quiet : comparison.found = []
    · have outcomeQuiet := made.found.trans quiet
      rcases following.finds found (List.append_eq_nil_iff.mpr ⟨nothing, outcomeQuiet⟩) with ⟨next, member, last, leads, lastFinds⟩
      rw [made.next] at member
      exact ⟨last, .head member leads, lastFinds⟩
    · exact ⟨comparison, .refl, quiet⟩
  settles nothing other otherKnown remembered := by
    rcases following.settles nothing other otherKnown remembered with remembered | settled
    · rcases (made.remembers other).mp remembered with remembered | same
      · exact .inl remembered
      · right
        have handled := following.handles nothing
        rw [made.next] at handled
        rcases same.eq_or_eq_swap numbered known otherKnown with rfl | rfl
        · exact .inl handled
        · right
          cases comparison <;> exact handled
    · exact .inr settled
  handles nothing other member := by
    rw [List.mem_singleton] at member
    subst other
    have outcomeNothing := (List.append_eq_nil_iff.mp (following.quiet nothing)).2
    rw [made.found] at outcomeNothing
    have handled := following.handles nothing
    rw [made.next] at handled
    exact .made outcomeNothing handled

/-- One exploration after the other follows up all comparisons of a list. -/
theorem foldl {comparisons : List Comparison}
    {explore : Comparison → Memory × List Diagnostic → Memory × List Diagnostic}
    {start : Memory × List Diagnostic} (sound : start.1.IsSound context)
    (follows : ∀ comparison ∈ comparisons, ∀ state : Memory × List Diagnostic,
      state.1.IsSound context →
      (∀ other, start.1.Remembers other → state.1.Remembers other) →
      FollowsUp context [comparison] state (explore comparison state)) :
    FollowsUp context comparisons start
      (comparisons.foldl (fun state next => explore next state) start) := by
  induction comparisons generalizing start with
  | nil => exact .refl sound
  | cons comparison rest ih =>
      have first := follows comparison List.mem_cons_self start sound fun _ => id
      refine first.append (ih first.sound ?_)
      intro other member state stateSound keeps
      exact follows other (List.mem_cons_of_mem _ member) state stateSound
        fun _ remembered => keeps _ (first.keeps _ remembered)

end FollowsUp

/-- An exploration whose bound is large enough follows up its comparison. -/
theorem explore_followsUp (numbered : context.document.HasDistinctNumbers) {depth : Nat}
    {comparison : Comparison} {state : Memory × List Diagnostic} (sound : state.1.IsSound context)
    (known : comparison.IsKnown context) (enough : chainBound context state.1 comparison < depth) :
    FollowsUp context [comparison] state (explore context depth comparison state) := by
  induction depth generalizing comparison state with
  | zero => exact absurd enough (Nat.not_lt_zero _)
  | succ depth ih =>
      rcases state with ⟨memory, found⟩
      simp only [explore]
      by_cases remembered : memory.Remembers comparison
      · rw [step_of_remembers remembered]
        simpa using FollowsUp.ofRemembered sound remembered
      · have made := step_isMade numbered sound known remembered
        apply FollowsUp.ofMade numbered known made
        apply FollowsUp.foldl made.sound
        intro next member later laterSound keeps
        rw [made.next] at member
        apply ih laterSound (known.next member)
        have fewer : chainBound context later.1 next ≤
            chainBound context (step context memory comparison).memory next :=
          chainBound_le_of_remembers keeps next
        have shorter := chainBound_lt_of_isMade known remembered made member
        have enoughHere : chainBound context memory comparison < depth + 1 := enough
        exact lt_of_le_of_lt fewer (lt_of_lt_of_le shorter (Nat.le_of_lt_succ enoughHere))

/-! ## The comparisons of a walk -/

theorem exists_of_mem_pairsWithin {α β : Type} {compare : α → α → β} {items : List α} {pair : β}
    (member : pair ∈ pairsWithin compare items) :
    ∃ first ∈ items, ∃ second ∈ items, pair = compare first second := by
  induction items with
  | nil => cases member
  | cons head rest ih =>
      simp only [pairsWithin, List.mem_append, List.mem_map] at member
      rcases member with ⟨second, secondMem, rfl⟩ | member
      · exact ⟨head, List.mem_cons_self, second, List.mem_cons_of_mem _ secondMem, rfl⟩
      · rcases ih member with ⟨first, firstMem, second, secondMem, rfl⟩
        exact ⟨first, List.mem_cons_of_mem _ firstMem, second, List.mem_cons_of_mem _ secondMem,
          rfl⟩

/-- Every two members of a list are compared in one of the two orders. -/
theorem mem_pairsWithin_or {α β : Type} (compare : α → α → β) {items : List α} {first second : α}
    (firstMem : first ∈ items) (secondMem : second ∈ items) :
    first = second ∨ compare first second ∈ pairsWithin compare items ∨
      compare second first ∈ pairsWithin compare items := by
  induction items with
  | nil => cases firstMem
  | cons head rest ih =>
      simp only [pairsWithin, List.mem_append, List.mem_map]
      rcases List.mem_cons.mp firstMem with rfl | firstRest
      · rcases List.mem_cons.mp secondMem with rfl | secondMem
        · exact .inl rfl
        · exact .inr (.inl (.inl ⟨second, secondMem, rfl⟩))
      · rcases List.mem_cons.mp secondMem with rfl | secondMem
        · exact .inr (.inr (.inl ⟨first, firstRest, rfl⟩))
        · rcases ih firstRest secondMem with same | member | member
          · exact .inl same
          · exact .inr (.inl (.inr member))
          · exact .inr (.inr (.inr member))

theorem mem_fragmentsWithin_iff {grouping : Grouping} {names : List String}
    {comparison : Comparison} :
    comparison ∈ within.fragmentsWithin grouping names ↔
      (∃ name ∈ names, comparison = .withFragment grouping name false) ∨
        comparison ∈ pairsWithin (fun first second => .fragments first second false) names := by
  induction names with
  | nil => simp [within.fragmentsWithin, pairsWithin]
  | cons name rest ih =>
      simp only [within.fragmentsWithin, pairsWithin, List.mem_append, List.mem_cons, ih]
      constructor
      · rintro ((rfl | member) | ⟨other, otherMem, rfl⟩ | member)
        · exact .inl ⟨name, .inl rfl, rfl⟩
        · exact .inr (.inl member)
        · exact .inl ⟨other, .inr otherMem, rfl⟩
        · exact .inr (.inr member)
      · rintro (⟨other, rfl | otherMem, rfl⟩ | member | member)
        · exact .inl (.inl rfl)
        · exact .inr (.inl ⟨other, otherMem, rfl⟩)
        · exact .inl (.inr member)
        · exact .inr (.inr member)

theorem mem_within_iff {grouping : Grouping} {comparison : Comparison} :
    comparison ∈ within grouping ↔
      (∃ key records, (key, records) ∈ grouping.fields ∧
        comparison ∈ pairsWithin (fun first second => .fields key first second false) records) ∨
      (∃ name ∈ grouping.spreads, comparison = .withFragment grouping name false) ∨
      comparison ∈ pairsWithin (fun first second => .fragments first second false)
        grouping.spreads := by
  simp only [within, List.mem_append, List.mem_flatMap, mem_fragmentsWithin_iff, Prod.exists]

theorem isKnown_of_mem_within {grouping : Grouping} (known : grouping.IsKnown context)
    {comparison : Comparison} (member : comparison ∈ within grouping) :
    comparison.IsKnown context := by
  rcases mem_within_iff.mp member with ⟨key, records, group, pair⟩ | ⟨name, nameMem, rfl⟩ | pair
  · rcases exists_of_mem_pairsWithin pair with ⟨first, firstMem, second, secondMem, rfl⟩
    exact ⟨known.isMet (Grouping.holds_of_mem known group firstMem).1,
      known.isMet (Grouping.holds_of_mem known group secondMem).1⟩
  · exact ⟨known, known.spreads_subset nameMem⟩
  · rcases exists_of_mem_pairsWithin pair with ⟨first, firstMem, second, secondMem, rfl⟩
    exact ⟨known.spreads_subset firstMem, known.spreads_subset secondMem⟩

/-- Exploring an opened set follows up the comparisons within it. -/
theorem exploreSet_followsUp (numbered : context.document.HasDistinctNumbers) {memory : Memory}
    (sound : memory.IsSound context) {owner : SchemaType} {selections : SelectionSet}
    (opens : Opens context owner selections) :
    FollowsUp context (within (.ofSelectionSet context.schema owner selections)) (memory, [])
      (exploreSet context memory owner selections) := by
  rcases Memory.grouping_spec numbered sound opens.of_some with ⟨sameGrouping, groupingSound, same⟩
  have groupingKnown : (Grouping.ofSelectionSet context.schema owner selections).IsKnown context :=
    .inr ⟨owner, selections, opens, rfl⟩
  unfold exploreSet
  simp only [sameGrouping, groupingOn]
  refine FollowsUp.ofRemembersSame (FollowsUp.foldl groupingSound ?_) same
  intro comparison member state stateSound _
  have known := isKnown_of_mem_within groupingKnown member
  exact explore_followsUp numbered stateSound known (chainBound_lt_depthBound known)

/-- The comparisons that start at an event of a walk. -/
def comparisonsAt (schema : Schema) (event : Event) : List Comparison :=
  match openedSet? event with
  | none => []
  | some (owner, selections) => within (.ofSelectionSet schema owner selections)

theorem watch_followsUp (numbered : context.document.HasDistinctNumbers) {memory : Memory}
    (sound : memory.IsSound context) {event : Event}
    (met : event ∈ Event.ofDocument context.schema context.document) :
    FollowsUp context (comparisonsAt context.schema event) (memory, [])
      (Rule.fieldsWillMerge.watch context memory event) := by
  simp only [comparisonsAt, Rule.fieldsWillMerge]
  cases opened : openedSet? event with
  | none => exact .refl sound
  | some pair =>
      rcases pair with ⟨owner, selections⟩
      exact exploreSet_followsUp numbered sound ⟨event, met, opened⟩

/-- The walk follows up the comparisons within all sets that it opens. -/
theorem findingsFrom_followsUp (numbered : context.document.HasDistinctNumbers)
    {events : List Event} (met : events ⊆ Event.ofDocument context.schema context.document)
    {memory : Memory} (sound : memory.IsSound context) :
    ∃ last : Memory, FollowsUp context (events.flatMap (comparisonsAt context.schema))
      (memory, []) (last, (Rule.fieldsWillMerge.findingsFrom context memory events).flatten) := by
  induction events generalizing memory with
  | nil => exact ⟨memory, .refl sound⟩
  | cons event rest ih =>
      rcases List.cons_subset.mp met with ⟨eventMet, restMet⟩
      have first := watch_followsUp numbered sound eventMet
      rcases ih restMet first.sound with ⟨last, others⟩
      exact ⟨last, first.append (others.afterFinding _)⟩

end Merging
end GraphQL

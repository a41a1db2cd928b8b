import GraphQL.Proofs.Merging.Exploration

/-!
# Coverage

A memory in which everything has been followed up covers all pairs of appearances that have to be
compared, although it holds few of them. Of two appearances behind fragments one is reached by
fewer steps through other fragments after every comparison that is made, whichever of the two
fragments it opens; and where both are reached from one fragment, the check of the fragment's own
selections takes over. The induction is therefore on the number of steps to both together.
-/

namespace GraphQL
namespace Merging

variable {context : RuleContext} {memory : Memory}

/-- Everything in the memory has been followed up, and so have all comparisons within opened sets.
-/
structure Memory.IsClosed (context : RuleContext) (memory : Memory) : Prop where
  settled : ∀ comparison : Comparison, comparison.IsKnown context → memory.Remembers comparison →
    ¬({} : Memory).Remembers comparison → Settled context memory comparison
  opened : ∀ owner selections, Opens context owner selections →
    ∀ comparison ∈ within (.ofSelectionSet context.schema owner selections),
      Handled context memory comparison

/-- The appearances are one, or have been compared in one of the two orders. -/
def Covered (context : RuleContext) (memory : Memory) (first second : FieldRecord) : Prop :=
  first = second ∨
    Handled context memory (.fields first.field.responseKey first second false) ∨
    Handled context memory (.fields second.field.responseKey second first false)

/-- The fragments are one, or have been compared in one of the two orders. -/
def Joined (context : RuleContext) (memory : Memory) (left right : String) : Prop :=
  left = right ∨ Handled context memory (.fragments left right false) ∨
    Handled context memory (.fragments right left false)

theorem Covered.symm {first second : FieldRecord} (covered : Covered context memory first second) :
    Covered context memory second first :=
  covered.imp Eq.symm Or.symm

/-! ## Comparisons that are handled -/

namespace Handled

theorem fields {key : String} {left right : FieldRecord} {exclusive : Bool}
    (handled : Handled context memory (.fields key left right exclusive)) :
    (Comparison.fields key left right exclusive).found = [] ∧
      ∀ next ∈ (Comparison.fields key left right exclusive).next context,
        Handled context memory next := by
  cases handled with
  | remembered known => cases known
  | made quiet following => exact ⟨quiet, following⟩

theorem withFragment (closed : memory.IsClosed context) {grouping : Grouping} {fragment : String}
    {exclusive : Bool} (known : (Comparison.withFragment grouping fragment exclusive).IsKnown context)
    (handled : Handled context memory (.withFragment grouping fragment exclusive)) :
    ∀ next ∈ (Comparison.withFragment grouping fragment exclusive).next context,
      Handled context memory next := by
  cases handled with
  | remembered remembered =>
      have fresh : ¬({} : Memory).Remembers (.withFragment grouping fragment exclusive) :=
        List.not_mem_nil
      rcases closed.settled _ known remembered fresh with following | following
      · exact following
      · exact following
  | made quiet following => exact following

theorem fragments (closed : memory.IsClosed context) {left right : String} {exclusive : Bool}
    (known : (Comparison.fragments left right exclusive).IsKnown context)
    (handled : Handled context memory (.fragments left right exclusive)) :
    left = right ∨
      (∀ next ∈ (Comparison.fragments left right exclusive).next context,
        Handled context memory next) ∨
      ∀ next ∈ (Comparison.fragments right left exclusive).next context,
        Handled context memory next := by
  by_cases same : left = right
  · exact .inl same
  · right
    cases handled with
    | remembered remembered =>
        apply closed.settled _ known remembered
        rintro (equal | member)
        · exact same equal
        · cases member
    | made quiet following => exact .inl following

end Handled

/-- What a grouping holds has been compared with all that lies behind a fragment, if the grouping
has been compared with the fragment. -/
theorem handled_of_inFragment (closed : memory.IsClosed context) {grouping : Grouping}
    (known : grouping.IsKnown context) {first second : FieldRecord} (holds : grouping.Holds first)
    (sameKey : first.field.responseKey = second.field.responseKey) {steps : Nat} {name : String}
    (behind : InFragment context steps name second) (nameKnown : name ∈ context.document.spreadNames)
    (handled : Handled context memory (.withFragment grouping name false)) :
    Handled context memory (.fields first.field.responseKey first second false) := by
  induction behind with
  | own found member =>
      have following := handled.withFragment closed ⟨known, nameKnown⟩
      simp only [Comparison.next, found] at following
      apply following
      apply List.mem_append_left
      rw [mem_between_iff_holds known (isKnown_ofFragment found)]
      exact ⟨_, _, holds, Grouping.holds_ofSelectionSet_iff.mpr member, sameKey, rfl⟩
  | nested found spread inside ih =>
      have following := handled.withFragment closed ⟨known, nameKnown⟩
      simp only [Comparison.next, found] at following
      apply ih sameKey ((Opens.ofFragmentWithType found).spreads_subset spread)
      apply following
      apply List.mem_append_right
      rw [Grouping.spreads_ofSelectionSet]
      exact List.mem_map.mpr ⟨_, spread, rfl⟩

/-! ## Within an opened set -/

section Opened

variable {owner : SchemaType} {selections : SelectionSet} {first second : FieldRecord}

theorem covered_of_mem_recordsIn (closed : memory.IsClosed context)
    (opens : Opens context owner selections)
    (firstMem : first ∈ recordsIn context.schema owner selections.items)
    (secondMem : second ∈ recordsIn context.schema owner selections.items)
    (sameKey : first.field.responseKey = second.field.responseKey) :
    Covered context memory first second := by
  rcases Grouping.holds_ofSelectionSet_iff.mpr firstMem with ⟨records, found, firstIn⟩
  rcases Grouping.holds_ofSelectionSet_iff.mpr secondMem with ⟨others, othersFound, secondIn⟩
  rw [← sameKey, found, Option.some.injEq] at othersFound
  subst others
  have handled := closed.opened _ _ opens
  have group := OrderedMap.mem_of_find? found
  rcases mem_pairsWithin_or
      (fun left right => Comparison.fields first.field.responseKey left right false)
      firstIn secondIn with same | member | member
  · exact .inl same
  · exact .inr (.inl (handled _ (mem_within_iff.mpr (.inl ⟨_, _, group, member⟩))))
  · unfold Covered
    rw [← sameKey]
    exact .inr (.inr (handled _ (mem_within_iff.mpr (.inl ⟨_, _, group, member⟩))))

theorem covered_of_mem_spreadsIn (closed : memory.IsClosed context)
    (opens : Opens context owner selections)
    (firstMem : first ∈ recordsIn context.schema owner selections.items) {steps : Nat}
    {name : String} (spread : name ∈ spreadsIn context.schema owner selections.items)
    (behind : InFragment context steps name second)
    (sameKey : first.field.responseKey = second.field.responseKey) :
    Covered context memory first second := by
  have compared : Handled context memory
      (.withFragment (.ofSelectionSet context.schema owner selections) name false) := by
    apply closed.opened _ _ opens
    rw [mem_within_iff, Grouping.spreads_ofSelectionSet]
    exact .inr (.inl ⟨name, spread, rfl⟩)
  exact .inr (.inl (handled_of_inFragment closed (.inr ⟨owner, selections, opens, rfl⟩)
    (Grouping.holds_ofSelectionSet_iff.mpr firstMem) sameKey behind (opens.spreads_subset spread)
    compared))

theorem joined_of_mem_spreadsIn (closed : memory.IsClosed context)
    (opens : Opens context owner selections) {left right : String}
    (leftSpread : left ∈ spreadsIn context.schema owner selections.items)
    (rightSpread : right ∈ spreadsIn context.schema owner selections.items) :
    Joined context memory left right := by
  have handled := closed.opened _ _ opens
  rw [← Grouping.spreads_ofSelectionSet] at leftSpread rightSpread
  rcases mem_pairsWithin_or (fun left right => Comparison.fragments left right false)
      leftSpread rightSpread with same | member | member
  · exact .inl same
  · exact .inr (.inl (handled _ (mem_within_iff.mpr (.inr (.inr member)))))
  · exact .inr (.inr (handled _ (mem_within_iff.mpr (.inr (.inr member)))))

end Opened

/-! ## Behind two fragments -/

/-- All pairs that are reached from joined fragments in fewer steps are covered. -/
def CoversBelow (context : RuleContext) (memory : Memory) (total : Nat) : Prop :=
  ∀ {steps otherSteps : Nat} {left right : String} {first second : FieldRecord},
    steps + otherSteps < total → left ∈ context.document.spreadNames →
    right ∈ context.document.spreadNames → Joined context memory left right →
    InFragment context steps left first → InFragment context otherSteps right second →
    first.field.responseKey = second.field.responseKey → Covered context memory first second

/-- Two fragments whose comparison has been made: either it opened both, or it went on from one of
them. -/
theorem covered_of_next {steps otherSteps : Nat} {left right : String} {first second : FieldRecord}
    (smaller : CoversBelow context memory (steps + otherSteps))
    (leftKnown : left ∈ context.document.spreadNames)
    (rightKnown : right ∈ context.document.spreadNames)
    (following : ∀ next ∈ (Comparison.fragments left right false).next context,
      Handled context memory next)
    (leftBehind : InFragment context steps left first)
    (rightBehind : InFragment context otherSteps right second)
    (sameKey : first.field.responseKey = second.field.responseKey) :
    Covered context memory first second := by
  cases leftBehind with
  | own leftFound leftMem =>
      cases rightBehind with
      | own rightFound rightMem =>
          right
          left
          apply following
          simp only [Comparison.next, leftFound, rightFound, List.append_assoc]
          apply List.mem_append_left
          rw [mem_between_iff_holds (isKnown_ofFragment leftFound) (isKnown_ofFragment rightFound)]
          exact ⟨_, _, Grouping.holds_ofSelectionSet_iff.mpr leftMem,
            Grouping.holds_ofSelectionSet_iff.mpr rightMem, sameKey, rfl⟩
      | @nested inner _ name _ _ _ rightFound spread inside =>
          have joined : Joined context memory left name := by
            right
            left
            apply following
            simp only [Comparison.next, leftFound, rightFound, Grouping.spreads_ofSelectionSet]
            exact List.mem_append_left _ (List.mem_append_right _ (List.mem_map_of_mem spread))
          exact smaller (by omega) leftKnown
            ((Opens.ofFragmentWithType rightFound).spreads_subset spread) joined
            (.own leftFound leftMem) inside sameKey
  | @nested inner _ name _ _ _ leftFound spread inside =>
      have rightDefined : ∃ definition type,
          fragmentWithType? context right = some (definition, type) := by
        cases rightBehind with
        | own rightFound _ => exact ⟨_, _, rightFound⟩
        | nested rightFound _ _ => exact ⟨_, _, rightFound⟩
      rcases rightDefined with ⟨definition, type, rightFound⟩
      have joined : Joined context memory name right := by
        right
        left
        apply following
        simp only [Comparison.next, leftFound, rightFound, Grouping.spreads_ofSelectionSet]
        exact List.mem_append_right _ (List.mem_map_of_mem spread)
      exact smaller (by omega) ((Opens.ofFragmentWithType leftFound).spreads_subset spread)
        rightKnown joined inside rightBehind sameKey

/-- Two appearances behind one fragment are compared where the fragment is defined. -/
theorem covered_of_same_fragment (closed : memory.IsClosed context) {steps otherSteps : Nat}
    {name : String} {first second : FieldRecord}
    (smaller : CoversBelow context memory (steps + otherSteps))
    (leftBehind : InFragment context steps name first)
    (rightBehind : InFragment context otherSteps name second)
    (sameKey : first.field.responseKey = second.field.responseKey) :
    Covered context memory first second := by
  cases leftBehind with
  | own found firstMem =>
      have opens := Opens.ofFragmentWithType found
      cases rightBehind with
      | own otherFound secondMem =>
          cases found.symm.trans otherFound
          exact covered_of_mem_recordsIn closed opens firstMem secondMem sameKey
      | nested otherFound spread inside =>
          cases found.symm.trans otherFound
          exact covered_of_mem_spreadsIn closed opens firstMem spread inside sameKey
  | nested found spread inside =>
      have opens := Opens.ofFragmentWithType found
      cases rightBehind with
      | own otherFound secondMem =>
          cases found.symm.trans otherFound
          exact (covered_of_mem_spreadsIn closed opens secondMem spread inside sameKey.symm).symm
      | nested otherFound otherSpread otherInside =>
          cases found.symm.trans otherFound
          exact smaller (by omega) (opens.spreads_subset spread) (opens.spreads_subset otherSpread)
            (joined_of_mem_spreadsIn closed opens spread otherSpread) inside otherInside sameKey

/-- All pairs that are reached from joined fragments are covered. -/
theorem coversBelow (closed : memory.IsClosed context) (total : Nat) :
    CoversBelow context memory total := by
  induction total with
  | zero =>
      intro steps otherSteps left right first second fewer
      cases fewer
  | succ total ih =>
      intro steps otherSteps left right first second fewer leftKnown rightKnown joined leftBehind
        rightBehind sameKey
      have smaller : CoversBelow context memory (steps + otherSteps) := by
        intro _ _ _ _ _ _ below
        exact ih (by omega)
      have swapped : CoversBelow context memory (otherSteps + steps) := by
        rw [Nat.add_comm]
        exact smaller
      have made {left right : String} (handled : Handled context memory (.fragments left right false))
          (leftKnown : left ∈ context.document.spreadNames)
          (rightKnown : right ∈ context.document.spreadNames) :=
        handled.fragments closed ⟨leftKnown, rightKnown⟩
      have joinedNext : left = right ∨
          (∀ next ∈ (Comparison.fragments left right false).next context,
            Handled context memory next) ∨
          ∀ next ∈ (Comparison.fragments right left false).next context,
            Handled context memory next := by
        rcases joined with same | handled | handled
        · exact .inl same
        · exact made handled leftKnown rightKnown
        · exact (made handled rightKnown leftKnown).imp Eq.symm Or.symm
      rcases joinedNext with rfl | following | following
      · exact covered_of_same_fragment closed smaller leftBehind rightBehind sameKey
      · exact covered_of_next smaller leftKnown rightKnown following leftBehind rightBehind sameKey
      · exact (covered_of_next swapped rightKnown leftKnown following rightBehind leftBehind
          sameKey.symm).symm

theorem covered_of_joined (closed : memory.IsClosed context) {steps otherSteps : Nat}
    {left right : String} {first second : FieldRecord}
    (leftKnown : left ∈ context.document.spreadNames)
    (rightKnown : right ∈ context.document.spreadNames)
    (joined : Joined context memory left right) (leftBehind : InFragment context steps left first)
    (rightBehind : InFragment context otherSteps right second)
    (sameKey : first.field.responseKey = second.field.responseKey) :
    Covered context memory first second :=
  coversBelow closed (steps + otherSteps + 1) (Nat.lt_succ_self _) leftKnown rightKnown joined
    leftBehind rightBehind sameKey

/-! ## Whole expansions -/

/-- All pairs in the expansion of an opened set are covered. -/
theorem covered_of_inExpansion (closed : memory.IsClosed context) {owner : SchemaType}
    {selections : SelectionSet} (opens : Opens context owner selections)
    {first second : FieldRecord} (firstIn : InExpansion context owner selections.items first)
    (secondIn : InExpansion context owner selections.items second)
    (sameKey : first.field.responseKey = second.field.responseKey) :
    Covered context memory first second := by
  rcases firstIn.records_or_spreads with firstMem | ⟨left, leftSpread, steps, leftBehind⟩
  · rcases secondIn.records_or_spreads with secondMem | ⟨right, rightSpread, others, rightBehind⟩
    · exact covered_of_mem_recordsIn closed opens firstMem secondMem sameKey
    · exact covered_of_mem_spreadsIn closed opens firstMem rightSpread rightBehind sameKey
  · rcases secondIn.records_or_spreads with secondMem | ⟨right, rightSpread, others, rightBehind⟩
    · exact (covered_of_mem_spreadsIn closed opens secondMem leftSpread leftBehind
        sameKey.symm).symm
    · exact covered_of_joined closed (opens.spreads_subset leftSpread)
        (opens.spreads_subset rightSpread)
        (joined_of_mem_spreadsIn closed opens leftSpread rightSpread) leftBehind rightBehind sameKey

/-- All pairs from the selections of two compared fields are covered. -/
theorem covered_of_betweenSelections (closed : memory.IsClosed context)
    {leftType rightType : SchemaType} {leftSet rightSet : SelectionSet}
    (leftOpens : Opens context leftType leftSet) (rightOpens : Opens context rightType rightSet)
    (handled : ∀ next ∈ betweenSelections (.ofSelectionSet context.schema leftType leftSet)
      (.ofSelectionSet context.schema rightType rightSet) false, Handled context memory next)
    {first second : FieldRecord} (firstIn : InExpansion context leftType leftSet.items first)
    (secondIn : InExpansion context rightType rightSet.items second)
    (sameKey : first.field.responseKey = second.field.responseKey) :
    Covered context memory first second := by
  have leftKnown : (Grouping.ofSelectionSet context.schema leftType leftSet).IsKnown context :=
    .inr ⟨_, _, leftOpens, rfl⟩
  have rightKnown : (Grouping.ofSelectionSet context.schema rightType rightSet).IsKnown context :=
    .inr ⟨_, _, rightOpens, rfl⟩
  simp only [betweenSelections, List.mem_append, List.mem_map, List.mem_flatMap,
    Grouping.spreads_ofSelectionSet] at handled
  rcases firstIn.records_or_spreads with firstMem | ⟨left, leftSpread, steps, leftBehind⟩
  · have firstHolds := Grouping.holds_ofSelectionSet_iff.mpr firstMem
    rcases secondIn.records_or_spreads with secondMem | ⟨right, rightSpread, others, rightBehind⟩
    · have secondHolds := Grouping.holds_ofSelectionSet_iff.mpr secondMem
      right
      left
      apply handled
      left
      left
      left
      exact (mem_between_iff_holds leftKnown rightKnown).mpr
        ⟨first, second, firstHolds, secondHolds, sameKey, rfl⟩
    · have compared := handled _ (.inl (.inr ⟨right, rightSpread, rfl⟩))
      exact .inr (.inl (handled_of_inFragment closed leftKnown firstHolds sameKey rightBehind
        (rightOpens.spreads_subset rightSpread) compared))
  · rcases secondIn.records_or_spreads with secondMem | ⟨right, rightSpread, others, rightBehind⟩
    · have secondHolds := Grouping.holds_ofSelectionSet_iff.mpr secondMem
      have compared := handled _ (.inl (.inl (.inr ⟨left, leftSpread, rfl⟩)))
      exact .inr (.inr (handled_of_inFragment closed rightKnown secondHolds sameKey.symm leftBehind
        (leftOpens.spreads_subset leftSpread) compared))
    · have compared := handled _ (.inr ⟨left, leftSpread, right, rightSpread, rfl⟩)
      exact covered_of_joined closed (leftOpens.spreads_subset leftSpread)
        (rightOpens.spreads_subset rightSpread) (.inr (.inl compared)) leftBehind rightBehind sameKey

end Merging
end GraphQL

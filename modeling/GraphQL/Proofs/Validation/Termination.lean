import GraphQL.Proofs.Merging.Termination
import GraphQL.Proofs.Parsing.Numbering
import GraphQL.Proofs.Plan.Termination
import GraphQL.Validation.Variables

/-!
# Validation ends

The recursions of a validation, each without a bound, come to their end on every document: building
the plan, the search for conflicting fields, the search for cycles and the walk for variables. Only
names that have not been met lead anywhere: the two last ones keep all that they have met, the first
keeps what it entered on the way.
-/

namespace GraphQL

/-! ## Cycles of fragments -/

/-- Following spreads from some pending names until the start is met or nothing is pending. -/
inductive Searches (document : Document) (start : String) :
    List String → List String → Bool → Prop where
  | exhausted {seen : List String} : Searches document start seen [] false
  | met {seen pending : List String} : Searches document start seen (start :: pending) true
  | again {seen pending : List String} {name : String} {result : Bool} (other : name ≠ start)
      (known : name ∈ seen) (rest : Searches document start seen pending result) :
      Searches document start seen (name :: pending) result
  | follow {seen pending : List String} {name : String} {result : Bool} (other : name ≠ start)
      (fresh : name ∉ seen)
      (rest : Searches document start (name :: seen) (document.spreadsOf name ++ pending) result) :
      Searches document start seen (name :: pending) result

theorem searches_reaches {document : Document} {start : String} {bound : Nat}
    {seen pending : List String} (enough : document.pendingCost seen pending < bound) :
    Searches document start seen pending (document.reaches start bound seen pending) := by
  induction bound generalizing seen pending with
  | zero => omega
  | succ bound ih =>
      cases pending with
      | nil => exact .exhausted
      | cons name pending =>
          simp only [Document.reaches]
          split
          · rename_i same
            subst name
            exact .met
          · rename_i other
            split
            · rename_i known
              refine .again other (List.contains_iff_mem.mp known) (ih ?_)
              simp only [Document.pendingCost, List.length_cons] at enough ⊢
              omega
            · rename_i unknown
              have fresh : name ∉ seen := fun member => unknown (List.contains_iff_mem.mpr member)
              have cheaper : document.pendingCost (name :: seen)
                  (document.spreadsOf name ++ pending) <
                  document.pendingCost seen (name :: pending) :=
                document.pendingCost_enter fresh
              exact .follow other fresh (ih (by omega))

theorem searches_spreadsItself (document : Document) (name : String) :
    Searches document name [] (document.spreadsOf name) (document.spreadsItself name) :=
  searches_reaches (document.pendingCost_spreadsOf_lt name)

/-! ## Variables -/

/-- Adding the variables of some selections, following every spread that was not followed yet. -/
inductive Uses (document : Document) : VariableUse → List Selection → VariableUse → Prop where
  | nil {use : VariableUse} : Uses document use [] use
  | field {use after : VariableUse} {head : FieldSelection} {rest : List Selection}
      (others : Uses document
        (use.add (directiveVariables head.directives ++ argumentVariables head.arguments)) rest
        after) :
      Uses document use (.field head none :: rest) after
  | fieldWith {use between after : VariableUse} {head : FieldSelection} {selections : SelectionSet}
      {rest : List Selection}
      (inside : Uses document
        (use.add (directiveVariables head.directives ++ argumentVariables head.arguments))
        selections.items between)
      (others : Uses document between rest after) :
      Uses document use (.field head (some selections) :: rest) after
  | inlineFragment {use between after : VariableUse} {head : InlineFragment}
      {selections : SelectionSet} {rest : List Selection}
      (inside : Uses document (use.add (directiveVariables head.directives)) selections.items
        between)
      (others : Uses document between rest after) :
      Uses document use (.inlineFragment head selections :: rest) after
  | spreadAgain {use after : VariableUse} {head : FragmentSpread} {rest : List Selection}
      (followed : head.name.text ∈ use.followed)
      (others : Uses document (use.add (directiveVariables head.directives)) rest after) :
      Uses document use (.spread head :: rest) after
  | spreadOfNone {use after : VariableUse} {head : FragmentSpread} {rest : List Selection}
      (fresh : head.name.text ∉ use.followed)
      (undefined : document.fragment? head.name.text = none)
      (others : Uses document
        { use.add (directiveVariables head.directives) with
          followed := head.name.text :: use.followed } rest after) :
      Uses document use (.spread head :: rest) after
  | spread {use between after : VariableUse} {head : FragmentSpread}
      {fragment : FragmentDefinition} {rest : List Selection}
      (fresh : head.name.text ∉ use.followed)
      (defined : document.fragment? head.name.text = some fragment)
      (inside : Uses document
        (VariableUse.add
          { use.add (directiveVariables head.directives) with
            followed := head.name.text :: use.followed }
          (directiveVariables fragment.directives)) fragment.selections.items between)
      (others : Uses document between rest after) :
      Uses document use (.spread head :: rest) after

namespace VariableUse

variable {document : Document}

/-- The state in which the spread of a name is looked up after the name has been kept. -/
def keep (use : VariableUse) (name : String) : VariableUse :=
  { use with followed := name :: use.followed }

/-- The states hold the same variables and have followed the same fragments. Names that no fragment
has lead nowhere, so it does not matter which of them have been met. -/
structure Matches (document : Document) (use other : VariableUse) : Prop where
  names : use.names = other.names
  followed : ∀ name fragment, document.fragment? name = some fragment →
    (name ∈ use.followed ↔ name ∈ other.followed)

theorem Matches.refl (use : VariableUse) : Matches document use use :=
  ⟨rfl, fun _ _ _ => Iff.rfl⟩

theorem Matches.add {use other : VariableUse} (agree : Matches document use other)
    (names : List Name) : Matches document (use.add names) (other.add names) := by
  refine ⟨?_, agree.followed⟩
  simp only [VariableUse.add, agree.names]

theorem Matches.keep {use other : VariableUse} (agree : Matches document use other)
    (name : String) : Matches document (use.keep name) (other.keep name) := by
  refine ⟨agree.names, ?_⟩
  intro defined fragment found
  simp only [VariableUse.keep, List.mem_cons, agree.followed defined fragment found]

/-- Keeping a name that no fragment has changes nothing. -/
theorem matches_keep_of_undefined {name : String} (undefined : document.fragment? name = none)
    (use : VariableUse) : Matches document (use.keep name) use := by
  refine ⟨rfl, ?_⟩
  intro defined fragment found
  have different : defined ≠ name := by
    rintro rfl
    simp [undefined] at found
  simp [VariableUse.keep, different]

theorem Matches.symm {use other : VariableUse} (agree : Matches document use other) :
    Matches document other use :=
  ⟨agree.names.symm, fun name fragment found => (agree.followed name fragment found).symm⟩

theorem Matches.trans {first second third : VariableUse} (agree : Matches document first second)
    (agreeOn : Matches document second third) : Matches document first third :=
  ⟨agree.names.trans agreeOn.names, fun name fragment found =>
    (agree.followed name fragment found).trans (agreeOn.followed name fragment found)⟩

/-- What the bounded walk does at a spread, the walk without a bound does as well. -/
structure Follows (document : Document) (head : FragmentSpread) (use after : VariableUse) :
    Prop where
  grows : use.followed ⊆ after.followed
  uses : ∀ before : VariableUse,
    Matches document (before.add (directiveVariables head.directives)) use →
      ∃ between, Matches document between after ∧ ∀ rest last,
        Uses document between rest last → Uses document before (.spread head :: rest) last

/-- A spread that leads nowhere or has been followed. -/
theorem Follows.closed {head : FragmentSpread} {use after : VariableUse}
    (closed : ∀ fragment, document.fragment? head.name.text = some fragment →
      head.name.text ∈ use.followed)
    (grows : use.followed ⊆ after.followed) (same : Matches document use after) :
    Follows document head use after where
  grows := grows
  uses := by
    intro before agree
    by_cases known : head.name.text ∈ before.followed
    · exact ⟨_, agree.trans same, fun _ _ others => .spreadAgain known others⟩
    · have undefined : document.fragment? head.name.text = none := by
        cases found : document.fragment? head.name.text with
        | none => rfl
        | some fragment =>
            exact absurd ((agree.followed _ _ found).mpr (closed fragment found)) known
      have kept := matches_keep_of_undefined undefined
        (before.add (directiveVariables head.directives))
      exact ⟨_, kept.trans (agree.trans same),
        fun _ _ others => .spreadOfNone known undefined others⟩

/-- The walk goes through the selections themselves; only a spread leads elsewhere. -/
theorem exists_uses_selections {bound : Nat} {follow : FragmentSpread → VariableUse → VariableUse}
    (follows : ∀ head use, document.remaining (fun _ => 1) use.followed ≤ bound →
      Follows document head use (follow head use)) :
    ∀ (items : List Selection) (use start : VariableUse), Matches document start use →
      document.remaining (fun _ => 1) use.followed ≤ bound →
        use.followed ⊆ (selections follow use items).followed ∧
          ∃ after, Uses document start items after ∧
            Matches document after (selections follow use items)
  | [], use, start, agree, enough => by
      simp only [selections]
      exact ⟨List.Subset.refl _, start, .nil, agree⟩
  | .field head none :: rest, use, start, agree, enough => by
      simp only [selections, selection]
      rcases exists_uses_selections follows rest _ _ (agree.add _) enough with
        ⟨grows, after, others, agreeAfter⟩
      exact ⟨grows, after, .field others, agreeAfter⟩
  | .field head (some ⟨id, inner, span⟩) :: rest, use, start, agree, enough => by
      simp only [selections, selection, selectionSet]
      rcases exists_uses_selections follows inner _ _ (agree.add _) enough with
        ⟨grows, between, inside, agreeBetween⟩
      have enoughLeft := (document.remaining_le_of_subset (fun _ => 1) grows).trans enough
      rcases exists_uses_selections follows rest _ _ agreeBetween enoughLeft with
        ⟨growsOn, after, others, agreeAfter⟩
      exact ⟨List.Subset.trans grows growsOn, after, .fieldWith inside others, agreeAfter⟩
  | .inlineFragment head ⟨id, inner, span⟩ :: rest, use, start, agree, enough => by
      simp only [selections, selection, selectionSet]
      rcases exists_uses_selections follows inner _ _ (agree.add _) enough with
        ⟨grows, between, inside, agreeBetween⟩
      have enoughLeft := (document.remaining_le_of_subset (fun _ => 1) grows).trans enough
      rcases exists_uses_selections follows rest _ _ agreeBetween enoughLeft with
        ⟨growsOn, after, others, agreeAfter⟩
      exact ⟨List.Subset.trans grows growsOn, after, .inlineFragment inside others, agreeAfter⟩
  | .spread head :: rest, use, start, agree, enough => by
      simp only [selections, selection]
      have step := follows head (use.add (directiveVariables head.directives)) enough
      rcases step.uses start (agree.add _) with ⟨between, agreeBetween, continues⟩
      have enoughLeft := (document.remaining_le_of_subset (fun _ => 1) step.grows).trans enough
      rcases exists_uses_selections follows rest _ _ agreeBetween enoughLeft with
        ⟨growsOn, after, others, agreeAfter⟩
      exact ⟨List.Subset.trans step.grows growsOn, after, continues rest after others, agreeAfter⟩

/-- Following the spread of a fragment that is new. -/
theorem Follows.opened {head : FragmentSpread} {fragment : FragmentDefinition}
    {use after : VariableUse} (fresh : head.name.text ∉ use.followed)
    (defined : document.fragment? head.name.text = some fragment)
    (grows : (use.keep head.name.text).followed ⊆ after.followed)
    (inside : ∀ start, Matches document start
        ((use.keep head.name.text).add (directiveVariables fragment.directives)) →
      ∃ last, Uses document start fragment.selections.items last ∧ Matches document last after) :
    Follows document head use after where
  grows := List.Subset.trans (List.subset_cons_self _ _) grows
  uses := by
    intro before agree
    have freshBefore : head.name.text ∉ before.followed := by
      intro known
      exact fresh ((agree.followed _ _ defined).mp known)
    rcases inside _ ((agree.keep head.name.text).add _) with ⟨last, uses, agreeLast⟩
    exact ⟨last, agreeLast, fun _ _ others => .spread freshBefore defined uses others⟩

/-- A bound that the fragments not followed yet do not exceed is never used up. -/
theorem exists_uses_within {bound : Nat} (set : SelectionSet) {use start : VariableUse}
    (agree : Matches document start use)
    (enough : document.remaining (fun _ => 1) use.followed ≤ bound) :
    use.followed ⊆ (within document bound use set).followed ∧
      ∃ after, Uses document start set.items after ∧
        Matches document after (within document bound use set) := by
  induction bound generalizing set use start with
  | zero =>
      rcases set with ⟨id, items, span⟩
      simp only [within, selectionSet]
      refine exists_uses_selections ?_ items use start agree enough
      intro head use enough
      refine .closed ?_ (List.Subset.refl _) (.refl use)
      intro fragment defined
      by_contra fresh
      have taken := Document.add_remaining_le (fun _ => 1) defined
        (List.subset_cons_self head.name.text use.followed) fresh List.mem_cons_self
      omega
  | succ bound ih =>
      rcases set with ⟨id, items, span⟩
      simp only [within, selectionSet]
      refine exists_uses_selections ?_ items use start agree enough
      intro head use enough
      by_cases known : head.name.text ∈ use.followed
      · simp only [List.contains_iff_mem.mpr known, if_true]
        exact .closed (fun _ _ => known) (List.Subset.refl _) (.refl use)
      · have notKnown : use.followed.contains head.name.text = false := by
          simpa using known
        simp only [notKnown, Bool.false_eq_true, if_false]
        cases defined : document.fragment? head.name.text with
        | none =>
            refine .closed ?_ (List.subset_cons_self _ _)
              (matches_keep_of_undefined defined use).symm
            intro fragment found
            simp [defined] at found
        | some fragment =>
            have taken := Document.add_remaining_le (fun _ => 1) defined
              (List.subset_cons_self head.name.text use.followed) known List.mem_cons_self
            have enoughLeft : document.remaining (fun _ => 1)
                ((use.keep head.name.text).add
                  (directiveVariables fragment.directives)).followed ≤ bound := by
              simp only [VariableUse.add, keep]
              omega
            apply Follows.opened known defined (ih _ (.refl _) enoughLeft).1
            intro start agree
            exact (ih _ agree enoughLeft).2

/-- The walk for the variables of an operation ends, with the names that the operation uses. -/
theorem exists_uses_ofOperation (document : Document) (operation : OperationDefinition) :
    ∃ use, Uses document (VariableUse.add {} (directiveVariables operation.directives))
        operation.selections.items use ∧
      use.names = ofOperation document operation := by
  have all := document.remaining_le (fun _ => 1) []
  have enough : document.remaining (fun _ => 1)
      (VariableUse.add {} (directiveVariables operation.directives)).followed ≤
      document.fragments.length := by
    simpa [VariableUse.add] using all
  rcases exists_uses_within operation.selections (.refl _) enough with
    ⟨_, use, uses, agree⟩
  exact ⟨use, uses, agree.names⟩

end VariableUse

/-! ## All recursions -/

open Merging

/-- All that validation does on a document comes to its end, whichever rules look on. -/
structure Document.ValidationEnds (schema : Schema) (document : Document)
    (lines? : Option LineIndex) : Prop where
  /-- Collecting fields ends, for every object type and from every set, with the appearances. -/
  collecting : ∀ (object : SchemaType) (inherited : List PlanCondition) (entered : List String)
    (selections : SelectionSet),
    Gathers schema document object inherited entered selections.items
      (appearances schema document object inherited entered selections)
  /-- Building the nodes of an operation ends with its children in the plan. -/
  buildingOperations : ∀ definition ∈ document.operations, ∀ object : SchemaType,
    Plan.Builds ⟨schema, document, lines?⟩ object
      (appearances schema document object [] [] definition.selections)
      (Plan.Sources.children ⟨schema, document, lines?⟩ object [] definition.selections)
  /-- Building the nodes of a fragment ends with its children in the plan. -/
  buildingFragments : ∀ definition ∈ document.fragments, ∀ object : SchemaType,
    Plan.Builds ⟨schema, document, lines?⟩ object
      (appearances schema document object [] [definition.name.text] definition.selections)
      (Plan.Sources.children ⟨schema, document, lines?⟩ object [definition.name.text]
        definition.selections)
  /-- While a plan is built, no chain of nested collecting enters a fragment twice. -/
  entering : ∀ (object : SchemaType) (inherited : List PlanCondition) (entered : List String)
    (selections : SelectionSet),
    Plan.Nests ⟨schema, document, lines?⟩ object inherited entered selections → entered.Nodup
  /-- The search for a cycle through a name ends with its answer. -/
  cycles : ∀ name : String,
    Searches document name [] (document.spreadsOf name) (document.spreadsItself name)
  /-- The walk for the variables of an operation ends with the names that it uses. -/
  usedVariables : ∀ operation : OperationDefinition, ∃ use : VariableUse,
    Uses document (VariableUse.add {} (directiveVariables operation.directives))
        operation.selections.items use ∧
      use.names = VariableUse.ofOperation document operation
  /-- At every event that opens a set, the search for conflicts ends with what it has found. -/
  merging : ∀ (earlier later : List Event) (event : Event),
    Event.ofDocument schema document = earlier ++ event :: later →
    ∀ (owner : SchemaType) (selections : SelectionSet), openedSet? event = some (owner, selections) →
      let context : RuleContext := ⟨schema, document⟩
      let memory : Memory := Rule.fieldsWillMerge.memoryAfter context {} earlier
      Explores context ((memory.grouping schema owner (some selections)).2, [])
        (within (memory.grouping schema owner (some selections)).1)
        (Rule.fieldsWillMerge.watch context memory event)
  /-- After any events, every pair of fragments has been compared at most once for each flag. -/
  pairs : ∀ events : List Event,
    let context : RuleContext := ⟨schema, document⟩
    let memory : Memory := Rule.fieldsWillMerge.memoryAfter context {} events
    memory.CountsPairs context ∧
      memory.fragmentPairsCompared ≤
        document.fragmentNames.card * (document.fragmentNames.card - 1)

/-- Validation ends on every document in which the selection sets are told apart by their numbers,
whatever its fragments spread. -/
theorem Document.HasDistinctNumbers.validationEnds {document : Document}
    (numbered : document.HasDistinctNumbers) (schema : Schema) (lines? : Option LineIndex) :
    document.ValidationEnds schema lines? where
  collecting _ := gathers_appearances
  buildingOperations _ member object := Plan.builds_operation member object
  buildingFragments _ member object := Plan.builds_fragment member object
  entering _ _ _ _ nests := nests.entersOnceEach.nodup
  cycles := searches_spreadsItself document
  usedVariables := VariableUse.exists_uses_ofOperation document
  merging := by
    intro earlier later event walk owner selections opened context memory
    have earlierMet : earlier ⊆ Event.ofDocument schema document := by
      simp only [walk]
      exact List.subset_append_left _ _
    have eventMet : event ∈ Event.ofDocument schema document := by
      simp only [walk]
      exact List.mem_append_right _ List.mem_cons_self
    have sound : memory.IsSound context :=
      isSound_memoryAfter numbered earlierMet fun _ _ member => absurd member List.not_mem_nil
    exact explores_watch numbered sound eventMet opened
  pairs := by
    intro events context memory
    have counts : memory.CountsPairs context :=
      countsPairs_memoryAfter countsPairs_initial events
    exact ⟨counts, counts.fragmentPairsCompared_le⟩

/-- Validation ends on every document that a source spells. -/
theorem Document.validation_ends {source : String} {parsed : ParsedDocument}
    (parses : Document.parse source = .ok parsed) (schema : Schema) (lines? : Option LineIndex) :
    parsed.document.ValidationEnds schema lines? :=
  (Document.parse_hasDistinctNumbers parses).validationEnds schema lines?

namespace SpreadInCircles

/-- Two fragments that spread one another, through a field and through an inline fragment. -/
def source : String :=
  "{ ...F } fragment F on Q { a { ...G } } fragment G on Q { ... { ...F } }"

theorem ends_in_circles :
    ∃ parsed, Document.parse source = .ok parsed ∧
      parsed.document.spreadsItself "F" = true ∧ parsed.document.spreadsItself "G" = true ∧
      ∀ schema lines?, parsed.document.ValidationEnds schema lines? := by
  have evaluation : ((Document.parse source).toOption.any fun parsed =>
      parsed.document.spreadsItself "F" && parsed.document.spreadsItself "G") = true := by
    decide +kernel
  rcases exists_ok_of_any evaluation with ⟨parsed, parses, circles⟩
  simp only [Bool.and_eq_true] at circles
  exact ⟨parsed, parses, circles.1, circles.2, Document.validation_ends parses⟩

end SpreadInCircles

end GraphQL

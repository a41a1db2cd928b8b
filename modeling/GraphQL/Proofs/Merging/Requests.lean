import GraphQL.Proofs.Merging.Termination
import GraphQL.Proofs.Schema.Definition
import GraphQL.Proofs.Validation.Interleaving

/-!
# Requests for groupings

The search remembers a grouping by the number of its selection set alone, though the grouping also
depends on the type that the set is on. A journal of the search writes down every request for a
grouping, with the answer: those made when the walk enters an operation, a fragment or a field, those
for fragments that are compared and those for the selections of compared fields. Without the journal
it is the search itself.

Every request is for a set that the walk opens, at the type at which it opens it. So requests with
one number are for one set on one type, and what is remembered answers each of them as the grouping
made anew would.
-/

namespace GraphQL
namespace Merging

variable {context : RuleContext}

/-- A request for the grouping of a selection set on a type, with its answer. -/
structure Request where
  owner : SchemaType
  selections : SelectionSet
  answer : Grouping

/-- What the search remembers, and the requests for groupings that it has made. -/
structure Journal where
  memory : Memory := {}
  requests : List Request := []

/-- What a comparison finds, where it leads and the journal after it. -/
structure JournalOutcome where
  found : List Diagnostic := []
  next : List Comparison := []
  journal : Journal

/-- The outcome without the requests. -/
def JournalOutcome.forget (outcome : JournalOutcome) : Outcome where
  found := outcome.found
  next := outcome.next
  memory := outcome.journal.memory

namespace Journal

/-- Asks for the grouping of some selections, and writes that down if there are any. -/
def grouping (journal : Journal) (schema : Schema) (owner : SchemaType)
    (selections : Option SelectionSet) : Grouping × Journal :=
  let (answer, memory) := journal.memory.grouping schema owner selections
  let requests := selections.toList.map fun set => { owner, selections := set, answer }
  (answer, { memory, requests := journal.requests ++ requests })

def compareFields (context : RuleContext) (journal : Journal) (key : String)
    (left right : FieldRecord) (exclusive : Bool) : JournalOutcome :=
  let exclusive := exclusive || onDistinctObjects left right
  let found := if exclusive then [] else conflicts key left right
  match left.returnType? context.schema, right.returnType? context.schema with
  | some leftType, some rightType =>
      let (leftGrouping, journal) := journal.grouping context.schema leftType left.selections
      let (rightGrouping, journal) := journal.grouping context.schema rightType right.selections
      { found, next := betweenSelections leftGrouping rightGrouping exclusive, journal }
  | _, _ => { found, journal }

def compareWithFragment (context : RuleContext) (journal : Journal) (grouping : Grouping)
    (fragment : String) (exclusive : Bool) : JournalOutcome :=
  let entry := (grouping.set, fragment, exclusive)
  if journal.memory.comparedWithFragment.contains entry then { journal }
  else
    let journal := { journal with
      memory := { journal.memory with
        comparedWithFragment := entry :: journal.memory.comparedWithFragment } }
    match fragmentWithType? context fragment with
    | none => { journal }
    | some (definition, type) =>
        let (other, journal) := journal.grouping context.schema type (some definition.selections)
        { next := between grouping.fields other.fields exclusive
            ++ other.spreads.map fun nested => .withFragment grouping nested exclusive
          journal }

def compareFragments (context : RuleContext) (journal : Journal) (left right : String)
    (exclusive : Bool) : JournalOutcome :=
  if left = right then { journal }
  else
    let (first, second) := sortedPair left right
    let entry := (first, second, exclusive)
    if journal.memory.comparedFragments.contains entry then { journal }
    else
      let journal := { journal with
        memory := { journal.memory with
          comparedFragments := entry :: journal.memory.comparedFragments } }
      match fragmentWithType? context left, fragmentWithType? context right with
      | some (leftDefinition, leftType), some (rightDefinition, rightType) =>
          let journal := { journal with
            memory := { journal.memory with
              fragmentPairsCompared := journal.memory.fragmentPairsCompared + 1 } }
          let (leftGrouping, journal) :=
            journal.grouping context.schema leftType (some leftDefinition.selections)
          let (rightGrouping, journal) :=
            journal.grouping context.schema rightType (some rightDefinition.selections)
          { next := between leftGrouping.fields rightGrouping.fields exclusive
              ++ rightGrouping.spreads.map (fun nested => .fragments left nested exclusive)
              ++ leftGrouping.spreads.map (fun nested => .fragments nested right exclusive)
            journal }
      | _, _ => { journal }

/-- Makes one comparison. -/
def step (context : RuleContext) (journal : Journal) : Comparison → JournalOutcome
  | .fields key left right exclusive => compareFields context journal key left right exclusive
  | .withFragment grouping fragment exclusive =>
      compareWithFragment context journal grouping fragment exclusive
  | .fragments left right exclusive => compareFragments context journal left right exclusive

/-- Makes a comparison and all that it leads to, at most so many in a row. -/
def explore (context : RuleContext) :
    Nat → Comparison → Journal × List Diagnostic → Journal × List Diagnostic
  | 0, _, state => state
  | depth + 1, comparison, (journal, found) =>
      let outcome := step context journal comparison
      outcome.next.foldl (fun state next => explore context depth next state)
        (outcome.journal, found ++ outcome.found)

/-- Makes the comparisons within a selection set on a type. -/
def exploreSet (context : RuleContext) (journal : Journal) (owner : SchemaType)
    (selections : SelectionSet) : Journal × List Diagnostic :=
  let (grouping, journal) := journal.grouping context.schema owner (some selections)
  let depth := depthBound context.document
  (within grouping).foldl (fun state next => explore context depth next state) (journal, [])

end Journal

end Merging

/-- The rule on merging fields with a journal of its requests. -/
def Rule.journaledFieldsWillMerge : Rule where
  Memory := Merging.Journal
  initial := {}
  watch context journal event :=
    match Merging.openedSet? event with
    | none => (journal, [])
    | some (owner, selections) => journal.exploreSet context owner selections

namespace Merging

variable {context : RuleContext}

/-! ## Without the journal -/

namespace Journal

/-- A state of the search without its requests. -/
def forget (state : Journal × List Diagnostic) : Memory × List Diagnostic :=
  (state.1.memory, state.2)

theorem compareFields_forget (journal : Journal) (key : String) (left right : FieldRecord)
    (exclusive : Bool) :
    (compareFields context journal key left right exclusive).forget =
      Merging.compareFields context journal.memory key left right exclusive := by
  unfold compareFields Merging.compareFields
  cases left.returnType? context.schema with
  | none => rfl
  | some leftType =>
      cases right.returnType? context.schema with
      | none => rfl
      | some rightType => rfl

theorem compareWithFragment_forget (journal : Journal) (grouping : Grouping) (fragment : String)
    (exclusive : Bool) :
    (compareWithFragment context journal grouping fragment exclusive).forget =
      Merging.compareWithFragment context journal.memory grouping fragment exclusive := by
  simp only [compareWithFragment, Merging.compareWithFragment]
  split
  · rfl
  · cases fragmentWithType? context fragment with
    | none => rfl
    | some fragmentAndType => rfl

theorem compareFragments_forget (journal : Journal) (left right : String) (exclusive : Bool) :
    (compareFragments context journal left right exclusive).forget =
      Merging.compareFragments context journal.memory left right exclusive := by
  simp only [compareFragments, Merging.compareFragments]
  split
  · rfl
  · split
    · rfl
    · cases fragmentWithType? context left with
      | none => rfl
      | some leftFragment =>
          cases fragmentWithType? context right with
          | none => rfl
          | some rightFragment => rfl

theorem step_forget (journal : Journal) (comparison : Comparison) :
    (step context journal comparison).forget = Merging.step context journal.memory comparison := by
  cases comparison with
  | fields key left right exclusive => exact compareFields_forget journal key left right exclusive
  | withFragment grouping fragment exclusive =>
      exact compareWithFragment_forget journal grouping fragment exclusive
  | fragments left right exclusive => exact compareFragments_forget journal left right exclusive

theorem explore_forget (depth : Nat) (comparison : Comparison)
    (state : Journal × List Diagnostic) :
    forget (explore context depth comparison state) =
      Merging.explore context depth comparison (forget state) := by
  induction depth generalizing comparison state with
  | zero => rfl
  | succ depth ih =>
      rcases state with ⟨journal, found⟩
      have made := @step_forget context journal comparison
      simp only [explore, Merging.explore, forget, ← made]
      exact (List.foldl_hom forget fun state next => (ih next state).symm).symm

theorem exploreSet_forget (journal : Journal) (owner : SchemaType) (selections : SelectionSet) :
    forget (journal.exploreSet context owner selections) =
      Merging.exploreSet context journal.memory owner selections :=
  (List.foldl_hom forget fun state next => (explore_forget _ next state).symm).symm

theorem watch_forget (journal : Journal) (event : Event) :
    forget (Rule.journaledFieldsWillMerge.watch context journal event) =
      Rule.fieldsWillMerge.watch context journal.memory event := by
  simp only [Rule.journaledFieldsWillMerge, Rule.fieldsWillMerge]
  cases openedSet? event with
  | none => rfl
  | some opened => exact exploreSet_forget journal opened.1 opened.2

/-- The journal changes nothing in a walk, whatever rules look before and after this one and
whatever the limit is. -/
theorem walk_journaled (limit? : Option Nat) (nodes : Nat) (journal : Journal)
    (before after : List Watcher) (findings : List Diagnostic) (events : List Event) :
    Watcher.walk context limit? nodes (before ++ ⟨.journaledFieldsWillMerge, journal⟩ :: after)
        findings events =
      Watcher.walk context limit? nodes (before ++ ⟨.fieldsWillMerge, journal.memory⟩ :: after)
        findings events := by
  induction events generalizing nodes journal before after findings with
  | nil => rfl
  | cons event rest ih =>
      have watched := @watch_forget context journal event
      have remembered : Watcher.next context event ⟨.fieldsWillMerge, journal.memory⟩ =
          ⟨.fieldsWillMerge,
            Journal.memory (Rule.journaledFieldsWillMerge.watch context journal event).1⟩ := by
        simp only [Watcher.next, ← watched]
        rfl
      have found : Watcher.found context event ⟨.fieldsWillMerge, journal.memory⟩ =
          Watcher.found context event ⟨.journaledFieldsWillMerge, journal⟩ := by
        simp only [Watcher.found, ← watched]
        rfl
      simp only [Watcher.walk, Watcher.look_eq, List.map_append, List.map_cons, remembered, found]
      split
      · rfl
      · exact ih _ _ _ _ _

/-- The journal changes nothing of what the rule remembers. -/
theorem memory_memoryAfter (journal : Journal) (events : List Event) :
    Journal.memory (Rule.journaledFieldsWillMerge.memoryAfter context journal events) =
      Rule.fieldsWillMerge.memoryAfter context journal.memory events := by
  induction events generalizing journal with
  | nil => rfl
  | cons event rest ih =>
      have watched : Journal.memory (Rule.journaledFieldsWillMerge.watch context journal event).1 =
          (Rule.fieldsWillMerge.watch context journal.memory event).1 :=
        congrArg Prod.fst (watch_forget journal event)
      have after := ih (Rule.journaledFieldsWillMerge.watch context journal event).1
      rw [watched] at after
      exact after

end Journal

/-! ## What is asked for -/

/-- Every request is for a set that the walk opens, on the type at which it opens it, and its answer
is the grouping made anew. -/
structure Journal.IsFaithful (context : RuleContext) (journal : Journal) : Prop where
  sound : journal.memory.IsSound context
  opened : ∀ request ∈ journal.requests, Opens context request.owner request.selections
  answered : ∀ request ∈ journal.requests,
    request.answer = .ofSelectionSet context.schema request.owner request.selections

namespace Journal.IsFaithful

variable {journal : Journal}

/-- What is written down apart from the groupings and the requests does not count. -/
theorem remember (faithful : journal.IsFaithful context) {memory : Memory}
    (same : memory.groupings = journal.memory.groupings) :
    Journal.IsFaithful context { journal with memory } where
  sound id grouping member := faithful.sound id grouping (same ▸ member)
  opened := faithful.opened
  answered := faithful.answered

theorem grouping (numbered : context.document.HasDistinctNumbers)
    (faithful : journal.IsFaithful context) {owner : SchemaType}
    {selections : Option SelectionSet}
    (opens : ∀ set, selections = some set → Opens context owner set) :
    Journal.IsFaithful context (journal.grouping context.schema owner selections).2 := by
  rcases Memory.grouping_spec numbered faithful.sound opens with ⟨answer, sound, -⟩
  refine ⟨sound, ?_, ?_⟩
  · intro request member
    rcases List.mem_append.mp member with member | member
    · exact faithful.opened request member
    · rcases List.mem_map.mp member with ⟨set, selected, rfl⟩
      exact opens set (Option.mem_toList.mp selected)
  · intro request member
    rcases List.mem_append.mp member with member | member
    · exact faithful.answered request member
    · rcases List.mem_map.mp member with ⟨set, selected, rfl⟩
      have some : selections = some set := Option.mem_toList.mp selected
      subst some
      exact answer

theorem compareFields (numbered : context.document.HasDistinctNumbers)
    (faithful : journal.IsFaithful context) {key : String} {left right : FieldRecord}
    {exclusive : Bool} (known : (Comparison.fields key left right exclusive).IsKnown context) :
    Journal.IsFaithful context
      (Journal.compareFields context journal key left right exclusive).journal := by
  rcases known with ⟨leftMet, rightMet⟩
  unfold Journal.compareFields
  cases leftReturns : left.returnType? context.schema with
  | none => exact faithful
  | some leftType =>
      cases rightReturns : right.returnType? context.schema with
      | none => exact faithful
      | some rightType =>
          exact (faithful.grouping numbered (leftMet.opens leftReturns)).grouping numbered
            (rightMet.opens rightReturns)

/-- A fragment with a known type is asked for on that type. -/
theorem ofFragment (numbered : context.document.HasDistinctNumbers)
    (faithful : journal.IsFaithful context) {name : String} {fragment : FragmentDefinition}
    {type : SchemaType} (found : fragmentWithType? context name = some (fragment, type)) :
    Journal.IsFaithful context
      (journal.grouping context.schema type (some fragment.selections)).2 :=
  faithful.grouping numbered (Opens.ofFragmentWithType found).of_some

theorem compareWithFragment (numbered : context.document.HasDistinctNumbers)
    (faithful : journal.IsFaithful context) (grouping : Grouping) (fragment : String)
    (exclusive : Bool) :
    Journal.IsFaithful context
      (Journal.compareWithFragment context journal grouping fragment exclusive).journal := by
  simp only [Journal.compareWithFragment]
  split
  · exact faithful
  · cases found : fragmentWithType? context fragment with
    | none => exact faithful.remember rfl
    | some fragmentAndType =>
        refine ofFragment numbered ?_ found
        exact faithful.remember rfl

theorem compareFragments (numbered : context.document.HasDistinctNumbers)
    (faithful : journal.IsFaithful context) (left right : String) (exclusive : Bool) :
    Journal.IsFaithful context
      (Journal.compareFragments context journal left right exclusive).journal := by
  simp only [Journal.compareFragments]
  split
  · exact faithful
  · split
    · exact faithful
    · cases leftFound : fragmentWithType? context left with
      | none => exact faithful.remember rfl
      | some leftFragment =>
          cases rightFound : fragmentWithType? context right with
          | none => exact faithful.remember rfl
          | some rightFragment =>
              refine ofFragment numbered (ofFragment numbered ?_ leftFound) rightFound
              exact faithful.remember rfl

theorem step (numbered : context.document.HasDistinctNumbers)
    (faithful : journal.IsFaithful context) {comparison : Comparison}
    (known : comparison.IsKnown context) :
    Journal.IsFaithful context (Journal.step context journal comparison).journal := by
  cases comparison with
  | fields key left right exclusive => exact faithful.compareFields numbered known
  | withFragment grouping fragment exclusive =>
      exact faithful.compareWithFragment numbered grouping fragment exclusive
  | fragments left right exclusive =>
      exact faithful.compareFragments numbered left right exclusive

end Journal.IsFaithful

/-- A step leads from what the walk meets to what the walk meets. -/
theorem isKnown_of_mem_step (numbered : context.document.HasDistinctNumbers) {memory : Memory}
    (sound : memory.IsSound context) {comparison following : Comparison}
    (known : comparison.IsKnown context) (member : following ∈ (step context memory comparison).next) :
    following.IsKnown context := by
  by_cases remembered : memory.Remembers comparison
  · rw [step_of_remembers remembered] at member
    cases member
  · rw [(step_isMade numbered sound known remembered).next] at member
    exact known.next member

namespace Journal.IsFaithful

/-- Explorations of known comparisons, one after the other, ask for what the walk opens. -/
theorem foldl {comparisons : List Comparison}
    {explore : Comparison → Journal × List Diagnostic → Journal × List Diagnostic}
    {state : Journal × List Diagnostic} (faithful : state.1.IsFaithful context)
    (keeps : ∀ comparison ∈ comparisons, ∀ state : Journal × List Diagnostic,
      state.1.IsFaithful context → (explore comparison state).1.IsFaithful context) :
    Journal.IsFaithful context
      (comparisons.foldl (fun state next => explore next state) state).1 :=
  List.foldlRecOn (motive := fun state => Journal.IsFaithful context state.1) comparisons _ faithful
    fun state faithful comparison member => keeps comparison member state faithful

theorem explore (numbered : context.document.HasDistinctNumbers) {depth : Nat}
    {comparison : Comparison} {state : Journal × List Diagnostic}
    (faithful : state.1.IsFaithful context) (known : comparison.IsKnown context) :
    Journal.IsFaithful context (Journal.explore context depth comparison state).1 := by
  induction depth generalizing comparison state with
  | zero => exact faithful
  | succ depth ih =>
      rcases state with ⟨journal, found⟩
      refine foldl (faithful.step numbered known) ?_
      intro next member state faithfulHere
      refine ih faithfulHere (isKnown_of_mem_step numbered faithful.sound known ?_)
      rw [← step_forget]
      exact member

theorem exploreSet (numbered : context.document.HasDistinctNumbers) {journal : Journal}
    (faithful : journal.IsFaithful context) {owner : SchemaType} {selections : SelectionSet}
    (opens : Opens context owner selections) :
    Journal.IsFaithful context (journal.exploreSet context owner selections).1 := by
  rcases Memory.grouping_spec numbered faithful.sound opens.of_some with ⟨answer, -, -⟩
  refine foldl (faithful.grouping numbered opens.of_some) ?_
  intro comparison member state faithfulHere
  refine faithfulHere.explore numbered (isKnown_of_mem_within ?_ member)
  exact .inr ⟨owner, selections, opens, answer⟩

/-- Watching an event of the walk asks for what the walk opens. -/
theorem watch (numbered : context.document.HasDistinctNumbers) {journal : Journal}
    (faithful : journal.IsFaithful context) {event : Event}
    (met : event ∈ Event.ofDocument context.schema context.document) :
    Journal.IsFaithful context
      (Rule.journaledFieldsWillMerge.watch context journal event).1 := by
  simp only [Rule.journaledFieldsWillMerge]
  cases opened : openedSet? event with
  | none => exact faithful
  | some pair => exact faithful.exploreSet numbered ⟨event, met, opened⟩

theorem memoryAfter (numbered : context.document.HasDistinctNumbers) {events : List Event}
    (met : events ⊆ Event.ofDocument context.schema context.document) :
    Journal.IsFaithful context
      (Rule.journaledFieldsWillMerge.memoryAfter context {} events) := by
  have initial : Journal.IsFaithful context {} := by
    refine ⟨?_, ?_, ?_⟩
    · intro id grouping member
      cases member
    · intro request member
      cases member
    · intro request member
      cases member
  exact List.foldlRecOn (motive := Journal.IsFaithful context) events _ initial
    fun journal faithful event member => faithful.watch numbered (met member)

end Journal.IsFaithful

/-- However far a walk has come, requests for the grouping of a selection set with one number are
for one set on one type. What the search remembers by the number alone therefore answers each of
them as the grouping made anew would. The requests are those of a journal that changes nothing in
any walk of the document, neither what is found nor what the search remembers. -/
theorem requests_agree {schema : Schema} {document : Document}
    (numbered : document.HasDistinctNumbers) :
    (∀ limit? before after,
      Watcher.walk ⟨schema, document⟩ limit? 0
          (before ++ .start .journaledFieldsWillMerge :: after) []
          (Event.ofDocument schema document) =
        Watcher.walk ⟨schema, document⟩ limit? 0 (before ++ .start .fieldsWillMerge :: after) []
          (Event.ofDocument schema document)) ∧
    ∀ events, events <+: Event.ofDocument schema document →
      let journal : Journal :=
        Rule.journaledFieldsWillMerge.memoryAfter ⟨schema, document⟩ {} events
      journal.memory = Rule.fieldsWillMerge.memoryAfter ⟨schema, document⟩ {} events ∧
      (∀ first ∈ journal.requests, ∀ second ∈ journal.requests,
        first.selections.id = second.selections.id →
          first.owner = second.owner ∧ first.selections = second.selections) ∧
      ∀ request ∈ journal.requests,
        request.answer = Grouping.ofSelectionSet schema request.owner request.selections := by
  refine ⟨fun limit? before after => Journal.walk_journaled limit? 0 {} before after [] _, ?_⟩
  intro events walked journal
  have faithful : Journal.IsFaithful ⟨schema, document⟩ journal :=
    .memoryAfter numbered walked.subset
  refine ⟨Journal.memory_memoryAfter {} events, ?_, faithful.answered⟩
  intro first firstMem second secondMem same
  exact (faithful.opened first firstMem).eq_of_id_eq numbered (faithful.opened second secondMem)
    same

namespace SharedSelections

def query : SchemaType :=
  { name := "Query", form := .object [("me", { name := "me", type := .named "User" })] [] }

def user : SchemaType :=
  { name := "User", form := .object [("name", { name := "name", type := .named "Int" })] [] }

def schema : Schema :=
  { queryType := some "Query", types := [("Query", query), ("User", user)] }

/-- A field with selections next to a fragment with the same field. -/
def source : String :=
  "\x7b ...Owner me \x7b name \x7d \x7d fragment Owner on Query \x7b me \x7b name \x7d \x7d"

def journalOf (document : Document) : Journal :=
  Rule.journaledFieldsWillMerge.memoryAfter ⟨schema, document⟩ {}
    (Event.ofDocument schema document)

/-- The operation asks for the fragment and for the selections of both fields, and the walk asks for
all of these again. -/
theorem asks_again : ∃ parsed, Document.parse source = .ok parsed ∧
    parsed.document.HasDistinctNumbers ∧
    (journalOf parsed.document).requests.map
        (fun request => (request.selections.id, request.owner.name)) =
      [(0, "Query"), (2, "Query"), (1, "User"), (3, "User"), (1, "User"), (2, "Query"),
        (3, "User")] ∧
    ∀ request ∈ (journalOf parsed.document).requests,
      request.answer = Grouping.ofSelectionSet schema request.owner request.selections := by
  have evaluation : ((Document.parse source).toOption.any fun parsed =>
      decide parsed.document.HasDistinctNumbers &&
        (journalOf parsed.document).requests.map
            (fun request => (request.selections.id, request.owner.name)) ==
          [(0, "Query"), (2, "Query"), (1, "User"), (3, "User"), (1, "User"), (2, "Query"),
            (3, "User")]) = true := by
    decide +kernel
  rcases exists_ok_of_any evaluation with ⟨parsed, parses, facts⟩
  simp only [Bool.and_eq_true, decide_eq_true_eq, beq_iff_eq] at facts
  rcases facts with ⟨numbered, requests⟩
  rcases (requests_agree numbered).2 _ (List.prefix_refl _) with ⟨-, -, answers⟩
  exact ⟨parsed, parses, numbered, requests, answers⟩

end SharedSelections

end Merging
end GraphQL

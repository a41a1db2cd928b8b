import GraphQL.Proofs.Merging.Coverage

/-!
# The rule on merging fields is the plain check

The rule finds something in a document just when the expansion of some selection set that the walk
opens holds two appearances of one response key that conflict. One direction says that a comparison
is only ever made of appearances whose conflict is one within an opened set; the other that all
pairs in the expansions are covered by what has been compared, so that conflicts have nowhere to
start from.
-/

namespace GraphQL
namespace Merging

variable {context : RuleContext}

/-- Two appearances in the expansion of an opened selection set conflict. -/
def HasConflict (context : RuleContext) : Prop :=
  ∃ owner selections, Opens context owner selections ∧ ∃ left right,
    InExpansion context owner selections.items left ∧
    InExpansion context owner selections.items right ∧
    left.field.responseKey = right.field.responseKey ∧ Conflict context left right

/-! ## What is found is a conflict -/

/-- The comparison is about two appearances that can apply to one object. -/
inductive Comparison.IsAbout (context : RuleContext) :
    Comparison → FieldRecord → FieldRecord → Prop where
  | fields {key : String} {left right : FieldRecord} :
      IsAbout context (.fields key left right false) left right
  | withFragment {grouping : Grouping} {fragment : String} {first second : FieldRecord}
      {steps : Nat} (holds : grouping.Holds first)
      (behind : InFragment context steps fragment second)
      (sameKey : first.field.responseKey = second.field.responseKey) :
      IsAbout context (.withFragment grouping fragment false) first second
  | fragments {left right : String} {first second : FieldRecord} {steps otherSteps : Nat}
      (leftBehind : InFragment context steps left first)
      (rightBehind : InFragment context otherSteps right second)
      (sameKey : first.field.responseKey = second.field.responseKey) :
      IsAbout context (.fragments left right false) first second

theorem InFragment.inExpansion {steps : Nat} {name : String} {record : FieldRecord}
    (behind : InFragment context steps name record) {fragment : FragmentDefinition}
    {type : SchemaType} (found : fragmentWithType? context name = some (fragment, type)) :
    InExpansion context type fragment.selections.items record := by
  induction behind generalizing fragment type with
  | own ownFound member =>
      cases found.symm.trans ownFound
      exact inExpansion_of_mem_recordsIn member
  | nested ownFound spread inside ih =>
      cases found.symm.trans ownFound
      cases inside with
      | own innerFound _ => exact inExpansion_of_mem_spreadsIn innerFound (ih innerFound) spread
      | nested innerFound _ _ =>
          exact inExpansion_of_mem_spreadsIn innerFound (ih innerFound) spread

/-- The appearance is held by the grouping or lies behind one of its spreads. -/
def Grouping.Reaches (context : RuleContext) (grouping : Grouping) (record : FieldRecord) : Prop :=
  grouping.Holds record ∨ ∃ name ∈ grouping.spreads, ∃ steps, InFragment context steps name record

theorem Grouping.Reaches.inExpansion {owner : SchemaType} {selections : SelectionSet}
    {record : FieldRecord}
    (reaches : (Grouping.ofSelectionSet context.schema owner selections).Reaches context record) :
    InExpansion context owner selections.items record := by
  rcases reaches with holds | ⟨name, spread, steps, behind⟩
  · exact inExpansion_of_mem_recordsIn (Grouping.holds_ofSelectionSet_iff.mp holds)
  · rw [Grouping.spreads_ofSelectionSet] at spread
    cases behind with
    | own found member =>
        exact inExpansion_of_mem_spreadsIn found (inExpansion_of_mem_recordsIn member) spread
    | nested found inner inside =>
        exact inExpansion_of_mem_spreadsIn found
          ((InFragment.nested found inner inside).inExpansion found) spread

/-- Two appearances that are compared within a set are in its expansion, under one key. -/
theorem reaches_of_mem_within {grouping : Grouping} (known : grouping.IsKnown context)
    {comparison : Comparison} (member : comparison ∈ within grouping) {first second : FieldRecord}
    (about : comparison.IsAbout context first second) :
    grouping.Reaches context first ∧ grouping.Reaches context second ∧
      first.field.responseKey = second.field.responseKey := by
  rcases mem_within_iff.mp member with ⟨key, records, group, pair⟩ | ⟨name, spread, rfl⟩ | pair
  · rcases exists_of_mem_pairsWithin pair with ⟨left, leftMem, right, rightMem, rfl⟩
    cases about
    rcases Grouping.holds_of_mem known group leftMem with ⟨leftHolds, leftKey⟩
    rcases Grouping.holds_of_mem known group rightMem with ⟨rightHolds, rightKey⟩
    exact ⟨.inl leftHolds, .inl rightHolds, leftKey.trans rightKey.symm⟩
  · cases about with
    | withFragment holds behind sameKey =>
        exact ⟨.inl holds, .inr ⟨name, spread, _, behind⟩, sameKey⟩
  · rcases exists_of_mem_pairsWithin pair with ⟨left, leftMem, right, rightMem, rfl⟩
    cases about with
    | fragments leftBehind rightBehind sameKey =>
        exact ⟨.inr ⟨left, leftMem, _, leftBehind⟩, .inr ⟨right, rightMem, _, rightBehind⟩, sameKey⟩

/-- Two appearances that are compared between two groupings come from one of them each. -/
theorem reaches_of_mem_betweenSelections {left right : Grouping} (leftKnown : left.IsKnown context)
    (rightKnown : right.IsKnown context) {exclusive : Bool} {comparison : Comparison}
    (member : comparison ∈ betweenSelections left right exclusive) {first second : FieldRecord}
    (about : comparison.IsAbout context first second) :
    exclusive = false ∧ first.field.responseKey = second.field.responseKey ∧
      (left.Reaches context first ∧ right.Reaches context second ∨
        left.Reaches context second ∧ right.Reaches context first) := by
  simp only [betweenSelections, List.mem_append, List.mem_map, List.mem_flatMap] at member
  rcases member with ((member | ⟨name, spread, rfl⟩) | ⟨name, spread, rfl⟩)
    | ⟨leftName, leftSpread, rightName, rightSpread, rfl⟩
  · rcases (mem_between_iff_holds leftKnown rightKnown).mp member with
      ⟨_, _, firstHolds, secondHolds, sameKey, rfl⟩
    cases about
    exact ⟨rfl, sameKey, .inl ⟨.inl firstHolds, .inl secondHolds⟩⟩
  · cases about with
    | withFragment holds behind sameKey =>
        exact ⟨rfl, sameKey, .inr ⟨.inr ⟨name, spread, _, behind⟩, .inl holds⟩⟩
  · cases about with
    | withFragment holds behind sameKey =>
        exact ⟨rfl, sameKey, .inl ⟨.inl holds, .inr ⟨name, spread, _, behind⟩⟩⟩
  · cases about with
    | fragments leftBehind rightBehind sameKey =>
        exact ⟨rfl, sameKey, .inl ⟨.inr ⟨leftName, leftSpread, _, leftBehind⟩,
          .inr ⟨rightName, rightSpread, _, rightBehind⟩⟩⟩

theorem Grouping.Reaches.inSelections {owner : SchemaType} {selections : Option SelectionSet}
    {record : FieldRecord}
    (reaches : (groupingOn context.schema owner selections).Reaches context record) :
    ∃ set, selections = some set ∧ InExpansion context owner set.items record := by
  cases selections with
  | none =>
      rcases reaches with ⟨records, found, _⟩ | ⟨name, spread, _⟩
      · cases found
      · cases spread
  | some set => exact ⟨set, rfl, reaches.inExpansion⟩

/-- A conflict that a comparison leads to is one of appearances that the comparison is about. -/
theorem conflict_of_mem_next {comparison following : Comparison}
    (known : comparison.IsKnown context) (member : following ∈ comparison.next context)
    {first second : FieldRecord} (about : following.IsAbout context first second)
    (conflict : Conflict context first second) :
    ∃ outerFirst outerSecond, comparison.IsAbout context outerFirst outerSecond ∧
      Conflict context outerFirst outerSecond := by
  cases comparison with
  | fields key left right exclusive =>
      simp only [Comparison.next] at member
      split at member
      · rename_i leftType rightType leftReturns rightReturns
        rcases reaches_of_mem_betweenSelections (known.1.isKnown leftReturns)
          (known.2.isKnown rightReturns) member about with ⟨together, sameKey, reached⟩
        simp only [Bool.or_eq_false_iff] at together
        rcases together with ⟨rfl, together⟩
        refine ⟨left, right, .fields, ?_⟩
        rcases reached with ⟨leftReaches, rightReaches⟩ | ⟨leftReaches, rightReaches⟩
        · rcases leftReaches.inSelections with ⟨leftSet, leftSelects, leftInside⟩
          rcases rightReaches.inSelections with ⟨rightSet, rightSelects, rightInside⟩
          exact .inside together leftReturns rightReturns leftSelects rightSelects leftInside
            rightInside sameKey conflict
        · rcases leftReaches.inSelections with ⟨leftSet, leftSelects, leftInside⟩
          rcases rightReaches.inSelections with ⟨rightSet, rightSelects, rightInside⟩
          exact .inside together leftReturns rightReturns leftSelects rightSelects leftInside
            rightInside sameKey.symm conflict.symm
      · cases member
  | withFragment grouping fragment exclusive =>
      simp only [Comparison.next] at member
      split at member
      · cases member
      · rename_i definition type found
        refine ⟨first, second, ?_, conflict⟩
        rcases List.mem_append.mp member with member | member
        · rcases (mem_between_iff_holds known.1 (isKnown_ofFragment found)).mp member with
            ⟨_, _, firstHolds, secondHolds, sameKey, rfl⟩
          cases about
          exact .withFragment firstHolds
            (.own found (Grouping.holds_ofSelectionSet_iff.mp secondHolds)) sameKey
        · rw [Grouping.spreads_ofSelectionSet] at member
          rcases List.mem_map.mp member with ⟨name, spread, rfl⟩
          cases about with
          | withFragment holds behind sameKey =>
              exact .withFragment holds (.nested found spread behind) sameKey
  | fragments left right exclusive =>
      simp only [Comparison.next] at member
      split at member
      · rename_i leftDefinition leftType rightDefinition rightType leftFound rightFound
        refine ⟨first, second, ?_, conflict⟩
        simp only [List.mem_append, List.mem_map, Grouping.spreads_ofSelectionSet] at member
        rcases member with (member | ⟨name, spread, rfl⟩) | ⟨name, spread, rfl⟩
        · rcases (mem_between_iff_holds (isKnown_ofFragment leftFound)
            (isKnown_ofFragment rightFound)).mp member with
            ⟨_, _, firstHolds, secondHolds, sameKey, rfl⟩
          cases about
          exact .fragments (.own leftFound (Grouping.holds_ofSelectionSet_iff.mp firstHolds))
            (.own rightFound (Grouping.holds_ofSelectionSet_iff.mp secondHolds)) sameKey
        · cases about with
          | fragments leftBehind rightBehind sameKey =>
              exact .fragments leftBehind (.nested rightFound spread rightBehind) sameKey
        · cases about with
          | fragments leftBehind rightBehind sameKey =>
              exact .fragments (.nested leftFound spread leftBehind) rightBehind sameKey
      · cases member

theorem conflicts_eq_nil_iff {key : String} {left right : FieldRecord} :
    conflicts key left right = [] ↔
      left.field.name.text = right.field.name.text ∧
        argumentsText left.field = argumentsText right.field := by
  simp [conflicts]

theorem conflict_of_found {comparison : Comparison} (found : comparison.found ≠ []) :
    ∃ first second, comparison.IsAbout context first second ∧ Conflict context first second := by
  cases comparison with
  | fields key left right exclusive =>
      simp only [Comparison.found] at found
      split at found
      · exact absurd rfl found
      · rename_i together
        simp only [Bool.not_eq_true, Bool.or_eq_false_iff] at together
        rcases together with ⟨rfl, together⟩
        rw [Ne, conflicts_eq_nil_iff, Decidable.not_and_iff_or_not] at found
        exact ⟨left, right, .fields, .direct together found⟩
  | withFragment grouping fragment exclusive => exact absurd rfl found
  | fragments left right exclusive => exact absurd rfl found

theorem conflict_of_leadsTo {comparison last : Comparison} (leads : LeadsTo context comparison last)
    (known : comparison.IsKnown context) (found : last.found ≠ []) :
    ∃ first second, comparison.IsAbout context first second ∧ Conflict context first second := by
  induction leads using Relation.ReflTransGen.head_induction_on with
  | refl => exact conflict_of_found found
  | head member _ ih =>
      rcases ih (known.next member) with ⟨first, second, about, conflict⟩
      exact conflict_of_mem_next known member about conflict

/-! ## All conflicts are found -/

/-- Appearances that are covered do not conflict. -/
theorem not_conflict_of_covered {memory : Memory} (closed : memory.IsClosed context)
    {first second : FieldRecord} (conflict : Conflict context first second) :
    first.IsMet context → second.IsMet context → ¬Covered context memory first second := by
  induction conflict with
  | @direct left right together differ =>
      intro _ _ covered
      rcases covered with rfl | handled | handled
      · rcases differ with differ | differ <;> exact differ rfl
      · have quiet := handled.fields.1
        simp only [Comparison.found, together, Bool.or_false, Bool.false_eq_true, if_false,
          conflicts_eq_nil_iff] at quiet
        rcases differ with differ | differ
        · exact differ quiet.1
        · exact differ quiet.2
      · have quiet := handled.fields.1
        rw [onDistinctObjects_comm] at together
        simp only [Comparison.found, together, Bool.or_false, Bool.false_eq_true, if_false,
          conflicts_eq_nil_iff] at quiet
        rcases differ with differ | differ
        · exact differ quiet.1.symm
        · exact differ quiet.2.symm
  | @inside left right leftInner rightInner leftType rightType leftSet rightSet together leftReturns
      rightReturns leftSelects rightSelects leftInside rightInside sameKey conflict ih =>
      intro leftMet rightMet covered
      have leftOpens := leftMet.opens leftReturns leftSet leftSelects
      have rightOpens := rightMet.opens rightReturns rightSet rightSelects
      apply ih (leftInside.isMet leftOpens.visits) (rightInside.isMet rightOpens.visits)
      rcases covered with rfl | handled | handled
      · cases leftReturns.symm.trans rightReturns
        cases leftSelects.symm.trans rightSelects
        exact covered_of_inExpansion closed leftOpens leftInside rightInside sameKey
      · have following := handled.fields.2
        simp only [Comparison.next, leftReturns, rightReturns, leftSelects, rightSelects, together,
          groupingOn, Bool.or_false] at following
        exact covered_of_betweenSelections closed leftOpens rightOpens following leftInside
          rightInside sameKey
      · have following := handled.fields.2
        rw [onDistinctObjects_comm] at together
        simp only [Comparison.next, leftReturns, rightReturns, leftSelects, rightSelects, together,
          groupingOn, Bool.or_false] at following
        exact (covered_of_betweenSelections closed rightOpens leftOpens following rightInside
          leftInside sameKey.symm).symm

/-- A memory after a walk without findings has everything followed up. -/
theorem FollowsUp.isClosed {memory : Memory}
    (follows : FollowsUp context ((Event.ofDocument context.schema context.document).flatMap
      (comparisonsAt context.schema)) ({}, []) (memory, [])) : memory.IsClosed context where
  settled comparison known remembered fresh :=
    (follows.settles rfl comparison known remembered).resolve_left fresh
  opened owner selections opens comparison member := by
    rcases opens with ⟨event, met, opened⟩
    apply follows.handles rfl
    refine List.mem_flatMap.mpr ⟨event, met, ?_⟩
    simpa only [comparisonsAt, opened] using member

/-! ## The rule -/

theorem hasConflict_of_found {memory : Memory} {found : List Diagnostic}
    (follows : FollowsUp context ((Event.ofDocument context.schema context.document).flatMap
      (comparisonsAt context.schema)) ({}, []) (memory, found)) (some : found ≠ []) :
    HasConflict context := by
  rcases follows.finds some rfl with ⟨comparison, member, last, leads, lastFound⟩
  rcases List.mem_flatMap.mp member with ⟨event, met, member⟩
  unfold comparisonsAt at member
  split at member
  · cases member
  · rename_i owner selections opened
    have opens : Opens context owner selections := ⟨event, met, opened⟩
    have grouping : (Grouping.ofSelectionSet context.schema owner selections).IsKnown context :=
      .inr ⟨owner, selections, opens, rfl⟩
    rcases conflict_of_leadsTo leads (isKnown_of_mem_within grouping member) lastFound with
      ⟨first, second, about, conflict⟩
    rcases reaches_of_mem_within grouping member about with ⟨firstReaches, secondReaches, sameKey⟩
    exact ⟨owner, selections, opens, first, second, firstReaches.inExpansion,
      secondReaches.inExpansion, sameKey, conflict⟩

/-- The rule finds something just when the document has a conflict. -/
theorem findings_ne_nil_iff (numbered : context.document.HasDistinctNumbers) :
    (Rule.fieldsWillMerge.findings context
        (Event.ofDocument context.schema context.document)).flatten ≠ [] ↔
      HasConflict context := by
  have sound : ({} : Memory).IsSound context := by
    intro id grouping member
    cases member
  rcases findingsFrom_followsUp numbered (List.Subset.refl _) sound with ⟨last, follows⟩
  constructor
  · exact hasConflict_of_found follows
  · intro ⟨owner, selections, opens, left, right, leftIn, rightIn, sameKey, conflict⟩ nothing
    have followsAll := follows
    unfold Rule.findings at nothing
    simp only [Rule.fieldsWillMerge] at nothing followsAll
    rw [nothing] at followsAll
    have closed := followsAll.isClosed
    exact not_conflict_of_covered closed conflict (leftIn.isMet opens.visits)
      (rightIn.isMet opens.visits)
      (covered_of_inExpansion closed opens leftIn rightIn sameKey)

/-- Where an appearance conflicts with itself, two different ones conflict in its selections. -/
theorem Conflict.exists_different {left right : FieldRecord}
    (conflict : Conflict context left right) : left.IsMet context → left = right →
      ∃ owner selections, Opens context owner selections ∧ ∃ first second, first ≠ second ∧
        InExpansion context owner selections.items first ∧
        InExpansion context owner selections.items second ∧
        first.field.responseKey = second.field.responseKey ∧ Conflict context first second := by
  induction conflict with
  | direct together differ =>
      rintro _ rfl
      rcases differ with differ | differ <;> exact absurd rfl differ
  | @inside left right leftInner rightInner leftType rightType leftSet rightSet together leftReturns
      rightReturns leftSelects rightSelects leftInside rightInside sameKey conflict ih =>
      rintro met rfl
      cases leftReturns.symm.trans rightReturns
      cases leftSelects.symm.trans rightSelects
      have opens := met.opens leftReturns leftSet leftSelects
      by_cases same : leftInner = rightInner
      · exact ih (leftInside.isMet opens.visits) same
      · exact ⟨leftType, leftSet, opens, leftInner, rightInner, same, leftInside, rightInside,
          sameKey, conflict⟩

/-- The rule on merging fields finds something in a document just when two different appearances of
one response key conflict in the expansion of a selection set that the walk opens. -/
theorem fieldsWillMerge_finds_iff {schema : Schema} {document : Document}
    (numbered : document.HasDistinctNumbers) :
    (∃ found ∈ Rule.fieldsWillMerge.findings ⟨schema, document⟩ (Event.ofDocument schema document),
        found ≠ []) ↔
      ∃ owner selections, Opens ⟨schema, document⟩ owner selections ∧
        ∃ left right, left ≠ right ∧
          InExpansion ⟨schema, document⟩ owner selections.items left ∧
          InExpansion ⟨schema, document⟩ owner selections.items right ∧
          left.field.responseKey = right.field.responseKey ∧
          Conflict ⟨schema, document⟩ left right := by
  have plain := @findings_ne_nil_iff ⟨schema, document⟩ numbered
  simp only [ne_eq, List.flatten_eq_nil_iff, not_forall] at plain
  simp only [ne_eq, exists_prop] at plain ⊢
  rw [plain]
  constructor
  · rintro ⟨owner, selections, opens, left, right, leftIn, rightIn, sameKey, conflict⟩
    by_cases same : left = right
    · exact conflict.exists_different (leftIn.isMet opens.visits) same
    · exact ⟨owner, selections, opens, left, right, same, leftIn, rightIn, sameKey, conflict⟩
  · rintro ⟨owner, selections, opens, left, right, _, leftIn, rightIn, sameKey, conflict⟩
    exact ⟨owner, selections, opens, left, right, leftIn, rightIn, sameKey, conflict⟩

namespace TwoFragments

def word (text : String) : Name := ⟨text, ⟨0, 0⟩⟩

def query : SchemaType :=
  { name := "Query"
    form := .object
      [("left", { name := "left", type := .named "Int" }),
        ("right", { name := "right", type := .named "Int" })]
      [] }

def schema : Schema := { queryType := some "Query", types := [("Query", query)] }

def valueFrom (field : String) : FieldSelection :=
  { responseAlias := some (word "value"), name := word field, arguments := [], directives := []
    span := ⟨0, 0⟩ }

def spreadOf (fragment : String) : FragmentSpread :=
  { name := word fragment, directives := [], span := ⟨0, 0⟩ }

def fragmentOf (name : String) (id : Nat) (field other : String) : FragmentDefinition :=
  { name := word name, typeCondition := word "Query", directives := [], span := ⟨0, 0⟩
    selections := ⟨id, [.field (valueFrom field) none, .spread (spreadOf other)], ⟨0, 0⟩⟩ }

def operation : OperationDefinition :=
  { kind := .query, name := none, variableDefinitions := [], directives := [], span := ⟨0, 0⟩
    selections := ⟨0, [.spread (spreadOf "First")], ⟨0, 0⟩⟩ }

/-- A query that spreads the first of two fragments, which spread one another. -/
def document : Document :=
  { span := ⟨0, 0⟩
    definitions :=
      [.operation operation, .fragment (fragmentOf "First" 1 "left" "Second"),
        .fragment (fragmentOf "Second" 2 "right" "First")] }

theorem left_inExpansion :
    InExpansion ⟨schema, document⟩ query operation.selections.items
      (.on schema query (valueFrom "left") none) :=
  .spread List.mem_cons_self rfl rfl (.field List.mem_cons_self)

theorem right_inExpansion :
    InExpansion ⟨schema, document⟩ query operation.selections.items
      (.on schema query (valueFrom "right") none) :=
  .spread List.mem_cons_self rfl rfl
    (.spread (List.mem_cons_of_mem _ List.mem_cons_self) rfl rfl (.field List.mem_cons_self))

/-- In the two fragments one key stands for two fields, and the rule says so. -/
theorem finds_conflict :
    document.HasDistinctNumbers ∧
      ∃ found ∈ Rule.fieldsWillMerge.findings ⟨schema, document⟩ (Event.ofDocument schema document),
        found ≠ [] := by
  have numbered : document.HasDistinctNumbers := by decide
  have opens : Opens ⟨schema, document⟩ query operation.selections :=
    ⟨.operation operation (some query), List.mem_cons_self, rfl⟩
  have conflict : Conflict ⟨schema, document⟩ (.on schema query (valueFrom "left") none)
      (.on schema query (valueFrom "right") none) :=
    .direct rfl (.inl (by decide))
  have different : FieldRecord.on schema query (valueFrom "left") none ≠
      .on schema query (valueFrom "right") none := by
    intro same
    have sameName := congrArg (fun record => record.field.name.text) same
    exact absurd sameName (by decide)
  refine ⟨numbered, (fieldsWillMerge_finds_iff numbered).mpr ?_⟩
  exact ⟨query, operation.selections, opens, _, _, different, left_inExpansion, right_inExpansion,
    rfl, conflict⟩

end TwoFragments

end Merging
end GraphQL

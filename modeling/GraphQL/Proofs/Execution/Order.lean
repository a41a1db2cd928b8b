import GraphQL.Proofs.Execution.Conformance

/-!
# The order of an execution

The fields of a query are resolved as far as that needs no forcing before anything is forced, and so
it goes on from round to round. The fields of a mutation take turns: everything that happens for one
of them comes before what happens for the next, and nothing happens once the data are null.
-/

namespace GraphQL

variable {σ Object : Type} {env : Environment σ Object}

/-- A field is resolved or forced at or below a field of the root. -/
def Occurrence.Concerns (node : PlanNode) : Occurrence Object → Prop
  | resolved call => [.field node.responseKey] <+: call.path
  | opened _ _ => False
  | forced task _ => [.field node.responseKey] <+: task.path

theorem field_eq_of_prefix {key other : String} {path : ResponsePath}
    (first : [.field key] <+: path) (second : [.field other] <+: path) : key = other := by
  rcases first with ⟨rest, rfl⟩
  exact (PathSegment.field.inj (List.cons_prefix_cons.mp second).1).symm

/-- What happens for one field of the root concerns no other one. -/
theorem Occurrence.Concerns.responseKey_eq {occurrence : Occurrence Object} {node : PlanNode}
    {key : String} (concerns : occurrence.Concerns node) (below : occurrence.IsBelow [.field key]) :
    node.responseKey = key := by
  cases occurrence with
  | resolved call => exact field_eq_of_prefix concerns below
  | opened tree waiting => exact concerns.elim
  | forced task answer => exact field_eq_of_prefix concerns below

namespace InTurn

variable {final : ResponseTree} {done rest : List PlanNode}
  {past trace : List (Occurrence Object)}

theorem exists_field (inTurn : InTurn env final done past rest trace)
    {occurrence : Occurrence Object} (occurs : occurrence ∈ trace) :
    ∃ node ∈ rest, occurrence.IsBelow [.field node.responseKey] := by
  induction inTurn with
  | stop ended => cases occurs
  | field rounds concerns further ih =>
      rcases List.mem_append.mp occurs with occurs | occurs
      · exact ⟨_, List.mem_cons_self, concerns _ occurs⟩
      · rcases ih occurs with ⟨node, member, below⟩
        exact ⟨node, List.mem_cons_of_mem _ member, below⟩

/-- Nothing that concerns a field comes after what concerns a later one. -/
theorem pairwise (inTurn : InTurn env final done past rest trace)
    (distinct : (rest.map PlanNode.responseKey).Nodup) :
    trace.Pairwise fun earlier later => ∀ node other, [node, other].Sublist rest →
      later.Concerns node → ¬earlier.Concerns other := by
  induction inTurn with
  | stop ended => exact .nil
  | @field done rest first past block others rounds concerns further ih =>
      rw [List.map_cons, List.nodup_cons] at distinct
      -- Of two fields in order the later one is not the first, and the block concerns the first.
      have isFirst : ∀ earlier ∈ block, ∀ node other, [node, other].Sublist (first :: rest) →
          ¬earlier.Concerns other := by
        intro earlier occurs node other inOrder isOther
        have member : other ∈ rest := List.singleton_sublist.mp inOrder.tail
        have same := isOther.responseKey_eq (concerns earlier occurs)
        exact distinct.1 (same ▸ List.mem_map_of_mem member)
      rw [List.pairwise_append]
      refine ⟨?_, ?_, ?_⟩
      · exact List.pairwise_of_forall_mem_list fun earlier occurs _ _ node other inOrder _ =>
          isFirst earlier occurs node other inOrder
      · refine (ih distinct.2).imp_of_mem ?_
        intro earlier later _ occurs ordered node other inOrder isNode
        cases inOrder with
        | cons _ inOrder => exact ordered node other inOrder isNode
        | cons_cons _ isLater =>
            rcases further.exists_field occurs with ⟨inner, member, below⟩
            have same := isNode.responseKey_eq below
            exact absurd (same ▸ List.mem_map_of_mem member) distinct.1
      · intro earlier occurs later _ node other inOrder _
        exact isFirst earlier occurs node other inOrder

end InTurn

/-- The fields of a mutation that come first are executed first, and if they leave the data null
nothing is executed after them. -/
theorem recordedInTurn_front (bound : Nat) (root : ResolvedValue Object)
    (front back : PlanChildren) (tree : ResponseTree)
    (progress : Progress (Record σ Object) Object) :
    let first := env.recordedInTurn bound root front tree progress
    let whole := env.recordedInTurn bound root (front ++ back) tree progress
    whole = env.recordedInTurn bound root back first.1 first.2 ∧
      (first.1 = .null → whole = first) := by
  intro first whole
  have further : whole = env.recordedInTurn bound root back first.1 first.2 :=
    recordedInTurn_append bound root front back tree progress
  refine ⟨further, ?_⟩
  intro isNull
  rw [further, isNull, recordedInTurn_null, ← isNull]
  rfl

namespace Executor

variable {host : Host}

/-- An execution resolves and forces in order. -/
theorem execute_in_order {executor : Executor host} (typed : executor.accessors.IsTyped)
    {document : Document} {lines? : Option LineIndex} {request : Request host}
    {operation : PlanOperation} {bindings : Variables}
    (prepared : executor.prepare (Plan.ofDocument executor.schema document lines?) request.operation
      request.bindings = .ok (operation, bindings)) (session : Session host) :
    let env := executor.environment bindings request.context
    let record := executor.record request operation bindings session
    let children := operation.children.included bindings
    executor.execute (Plan.ofDocument executor.schema document lines?) request session =
        (.ofData record.1.toJson record.2.errors, record.2.outside.outside) ∧
      (∀ path, record.1.sight path ≠ .waiting) ∧
      (operation.kind ≠ .mutation → InRounds env children [] [] record.2.outside.trace) ∧
      (operation.kind = .mutation →
        InTurn env record.1 [] [] children record.2.outside.trace ∧
        (record.2.outside.trace.Pairwise fun earlier later =>
          ∀ node other, [node, other].Sublist children →
            later.Concerns node → ¬earlier.Concerns other) ∧
        ∀ front back, operation.children = front ++ back →
          let first := env.recordedInTurn (PlanNode.childrenPlaces operation.children) request.root
            front (.object []) { outside := { outside := session } }
          record = env.recordedInTurn (PlanNode.childrenPlaces operation.children) request.root
              back first.1 first.2 ∧
            (first.1 = .null → record = first)) := by
  intro env record children
  have settles : env.Settles := settles_environment typed bindings request.context
  rcases exists_mem_of_prepare prepared with ⟨key, member⟩
  have keyed := Plan.operation_isKeyed member
  have outcome := record_outcome typed prepared session
  refine ⟨execute_eq_record prepared session, fun path => outcome.root.sight_ne_waiting rfl path,
    ?_, ?_⟩
  · intro isQuery
    have together := (recordedTogether_outcome settles keyed request.root session).2
    have same : record = env.recordedTogether operation.children request.root
        { outside := { outside := session } } := by
      simp only [record, Executor.record, Environment.recordedOperation]
      cases kind : operation.kind with
      | mutation => exact absurd kind isQuery
      | _ => rfl
    rw [same]
    exact together
  · intro isMutation
    have same : record = env.recordedInTurn (PlanNode.childrenPlaces operation.children)
        request.root operation.children (.object []) { outside := { outside := session } } := by
      simp only [record, Executor.record, Environment.recordedOperation, isMutation]
      rfl
    have inTurn : InTurn env record.1 [] [] children record.2.outside.trace := by
      rw [same]
      exact (recordedMutation_outcome settles keyed request.root session).2
    have distinct : (children.map PlanNode.responseKey).Nodup := by
      rcases keyed with ⟨distinct, _⟩
      exact distinct.sublist (operation.children.included_keys_sublist bindings)
    refine ⟨inTurn, inTurn.pairwise distinct, ?_⟩
    intro front back split first
    have begins := @recordedInTurn_front _ _ env
      (PlanNode.childrenPlaces operation.children) request.root front back (.object [])
      { outside := { outside := session } }
    rw [← split, ← same] at begins
    exact begins

end Executor

namespace LazyFields

def turnsSchema : Schema :=
  (Schema.ofSource
    ("type Query { first: String second: String } "
      ++ "type Mutation { first: String! second: String! }")).toOption.getD {}

/-- In the mutation the first of two fields makes the data null. -/
def turns : Document :=
  ((Document.parse "mutation Turns { first second } query Round { first second }").toOption.map
    (·.document)).getD ⟨[], ⟨0, 0⟩⟩

def turnsPlan : Plan :=
  Plan.ofDocument turnsSchema turns none

def turnsRequest (name : String) : Request host where
  operation := some name
  root := .ofJson (.object [("first", .null), ("second", .string "second")])

/-- The places of the fields that are resolved and of those whose values are forced. -/
def order (trace : List (Occurrence host.Object)) : List ResponsePath × List ResponsePath :=
  ((trace.filterMap Occurrence.call?).map Call.path,
    trace.filterMap fun
      | .forced task _ => some task.path
      | _ => none)

theorem ends_after_first :
    ((executor turnsSchema).prepare turnsPlan (some "Turns") []).toOption.any
      (fun (operation, bindings) =>
      let record := (executor turnsSchema).record (turnsRequest "Turns") operation bindings session
      operation.kind == .mutation && record.1.toJson == .null &&
        order record.2.outside.trace == ([[.field "first"]], [[.field "first"]])) = true := by
  decide +kernel

theorem ends_after_round :
    ((executor turnsSchema).prepare turnsPlan (some "Round") []).toOption.any
      (fun (operation, bindings) =>
      let record := (executor turnsSchema).record (turnsRequest "Round") operation bindings session
      operation.kind == .query && order record.2.outside.trace ==
        ([[.field "first"], [.field "second"]], [[.field "first"], [.field "second"]])) = true := by
  decide +kernel

/-- The mutation stops in its first turn, and the query resolves and forces both fields. -/
theorem takes_turns :
    (∃ operation bindings,
      (executor turnsSchema).prepare turnsPlan (turnsRequest "Turns").operation
        (turnsRequest "Turns").bindings = .ok (operation, bindings) ∧
      operation.kind = .mutation ∧
      let env := (executor turnsSchema).environment bindings (turnsRequest "Turns").context
      let record := (executor turnsSchema).record (turnsRequest "Turns") operation bindings session
      let children := operation.children.included bindings
      InTurn env record.1 [] [] children record.2.outside.trace ∧
        (record.2.outside.trace.Pairwise fun earlier later =>
          ∀ node other, [node, other].Sublist children →
            later.Concerns node → ¬earlier.Concerns other) ∧
        order record.2.outside.trace = ([[.field "first"]], [[.field "first"]])) ∧
    ∃ operation bindings,
      (executor turnsSchema).prepare turnsPlan (turnsRequest "Round").operation
        (turnsRequest "Round").bindings = .ok (operation, bindings) ∧
      operation.kind = .query ∧
      let env := (executor turnsSchema).environment bindings (turnsRequest "Round").context
      let record := (executor turnsSchema).record (turnsRequest "Round") operation bindings session
      InRounds env (operation.children.included bindings) [] [] record.2.outside.trace ∧
        order record.2.outside.trace =
          ([[.field "first"], [.field "second"]], [[.field "first"], [.field "second"]]) := by
  constructor
  · rcases exists_ok_of_any ends_after_first with ⟨⟨operation, bindings⟩, prepared, shows⟩
    simp only [Bool.and_eq_true, beq_iff_eq] at shows
    rcases shows with ⟨⟨isMutation, _⟩, ordered⟩
    have prepares : (executor turnsSchema).prepare turnsPlan (turnsRequest "Turns").operation
        (turnsRequest "Turns").bindings = .ok (operation, bindings) := prepared
    rcases Executor.execute_in_order (isTyped turnsSchema) prepares session with ⟨_, _, _, inTurn⟩
    rcases inTurn isMutation with ⟨inTurn, apart, _⟩
    exact ⟨operation, bindings, prepares, isMutation, inTurn, apart, ordered⟩
  · rcases exists_ok_of_any ends_after_round with ⟨⟨operation, bindings⟩, prepared, shows⟩
    simp only [Bool.and_eq_true, beq_iff_eq] at shows
    rcases shows with ⟨isQuery, ordered⟩
    have prepares : (executor turnsSchema).prepare turnsPlan (turnsRequest "Round").operation
        (turnsRequest "Round").bindings = .ok (operation, bindings) := prepared
    rcases Executor.execute_in_order (isTyped turnsSchema) prepares session with ⟨_, _, inRounds, _⟩
    exact ⟨operation, bindings, prepares, isQuery, inRounds (by rw [isQuery]; decide), ordered⟩

end LazyFields

end GraphQL

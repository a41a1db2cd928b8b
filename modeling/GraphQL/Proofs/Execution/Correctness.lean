import GraphQL.Proofs.Execution.Operation
import GraphQL.Proofs.Execution.PureHost
import GraphQL.Proofs.Plan.Groups

/-!
# Executions of plans

With a pure host the response to a request has the data of the direct evaluation, so neither
laziness nor the order of the rounds can be seen in it. Its errors are among those that the
evaluation meets, and there are none only if the evaluation meets none.
-/

namespace GraphQL

namespace Plan.Sources

variable {sources : Sources}

/-- The nodes of groups have the keys of the groups. -/
theorem responseKeys_sublist (children : SchemaType → List Appearance → PlanChildren)
    (object : SchemaType) (groups : OrderedMap (List Appearance)) :
    ((groups.filterMap fun (key, group) =>
        match group with
        | [] => none
        | first :: others => some (key, sources.node children object key first others)).map
      fun entry => entry.2.responseKey).Sublist (OrderedMap.keys groups) := by
  induction groups with
  | nil => exact .slnil
  | cons entry rest ih =>
      rcases entry with ⟨key, group⟩
      cases group with
      | nil => exact .cons _ ih
      | cons first others => exact .cons_cons _ ih

theorem nodesWithin_isKeyed (depth : Nat) (object : SchemaType) (found : List Appearance) :
    PlanChildren.IsKeyed (sources.nodesWithin depth object found) := by
  induction depth generalizing object found with
  | zero =>
      refine ⟨List.nodup_nil, ?_⟩
      intro entry member
      cases member
  | succ depth ih =>
      constructor
      · have distinct := OrderedMap.nodup_keys_grouped
          (fun appearance : Appearance => appearance.field.responseKey) found
        exact distinct.sublist (responseKeys_sublist _ _ _)
      · rintro ⟨key, node⟩ member typed typedMem
        rcases mem_nodesWithin member with ⟨inner, first, others, same, _, rfl⟩
        cases same
        rcases mem_typedChildren_node typedMem with ⟨type, _, rfl⟩
        exact ih type _

end Plan.Sources

theorem Plan.operation_isKeyed {schema : Schema} {document : Document} {lines? : Option LineIndex}
    {entry : String × PlanOperation}
    (member : entry ∈ (Plan.ofDocument schema document lines?).operations) :
    entry.2.children.IsKeyed := by
  rcases entry with ⟨key, operation⟩
  rcases exists_operation_of_mem_ofDocument member with ⟨definition, _, made⟩
  rcases Option.bind_eq_some_iff.mp made with ⟨root, _, made⟩
  cases made
  exact Sources.nodesWithin_isKeyed _ _ _

namespace Executor

variable {host : Host}

theorem exists_mem_of_prepare {executor : Executor host} {plan : Plan} {name : Option String}
    {given bindings : Variables} {operation : PlanOperation}
    (prepared : executor.prepare plan name given = .ok (operation, bindings)) :
    ∃ key, (key, operation) ∈ plan.operations := by
  have chosen : plan.operation? name = some operation := by
    unfold prepare at prepared
    cases found : plan.operation? name with
    | none =>
        cases name <;> simp only [found] at prepared <;> cases prepared
    | some first =>
        simp only [found, bind, Except.bind, pure, Except.pure, throw, throwThe,
          MonadExceptOf.throw] at prepared
        split at prepared
        · cases prepared
        · cases bounded : executor.limits.maxDepth with
          | none =>
              rw [bounded] at prepared
              cases prepared
              rfl
          | some limit =>
              simp only [bounded] at prepared
              split at prepared
              · cases prepared
              · cases prepared
                rfl
  unfold Plan.operation? at chosen
  split at chosen
  · exact ⟨_, OrderedMap.mem_of_find? chosen⟩
  · split at chosen
    · rename_i only operations
      cases chosen
      exact ⟨_, operations ▸ List.mem_singleton_self _⟩
    · cases chosen

/-- The response to a request reproduces the direct evaluation of its operation. -/
theorem execute_reproduces {Value : Type} {executor : Executor host} {request : Request host}
    {code : PureCode Value} {represents : Session host → host.Value → Value → Prop}
    (pure : executor.IsPure request.context code represents) {session : Session host} {root : Value}
    (represented : represents session request.root root) {document : Document}
    {lines? : Option LineIndex} {operation : PlanOperation} {bindings : Variables}
    (prepared : executor.prepare (Plan.ofDocument executor.schema document lines?) request.operation
      request.bindings = .ok (operation, bindings)) :
    let evaluation := (code.environment executor bindings).evaluateOperation operation root
    let response :=
      (executor.execute (Plan.ofDocument executor.schema document lines?) request session).1
    response.data = some (evaluation.result.getD .null) ∧
      (∀ error ∈ response.errors.getD [], error ∈ evaluation.errors) ∧
      (response.errors = none → evaluation.errors = []) := by
  intro evaluation response
  rcases exists_mem_of_prepare prepared with ⟨key, member⟩
  have reproduces := executeOperation_reproduces (pure.simulates bindings)
    (Plan.operation_isKeyed member) represented
  have executed : response = .ofData
      ((executor.environment bindings request.context).executeOperation operation request.root
        { outside := session }).1.toJson
      ((executor.environment bindings request.context).executeOperation operation request.root
        { outside := session }).2.errors := by
    simp only [response, execute, prepared]
    rfl
  rw [executed]
  refine ⟨congrArg some reproduces.data, ?_, ?_⟩
  · intro error member
    apply reproduces.met
    unfold Response.ofData at member
    split at member
    · cases member
    · exact member
  · intro silent
    apply reproduces.silent
    unfold Response.ofData at silent
    split at silent
    · rename_i isEmpty
      exact List.isEmpty_iff.mp isEmpty
    · cases silent

end Executor

namespace LazyFields

/-- A host without objects of its own, whose work gives a value or an error that is known. -/
def host : Host where
  Object := Empty
  kind := Empty.elim
  Work := Except ResolverError Json
  State := Unit

def content (work : Except ResolverError Json) : host.Result :=
  work.map .ofJson

def code : HostCode host where
  answer work := .done (content work)
  compute _ := .done .null
  load _ _ := .done (.ok [])

/-- The property of a JSON object. -/
def property (parent : Json) (name : String) : Except ResolverError Json :=
  match parent.property? name with
  | some value => .ok value
  | none => .error (.fieldNotFound name)

/-- Every field is a property of its parent and is lazy. -/
def executor (schema : Schema) : Executor host where
  schema
  code
  resolvers :=
    { fallback := some (Resolver.pending fun call =>
        property (call.parent.json?.getD .null) call.info.name) }

inductive Plain where
  | eager (value : Json)
  | lazy (work : Except ResolverError Json)

def plainCode : PureCode Plain where
  isNull
    | .eager value => value.isNull
    | .lazy _ => false
  json?
    | .eager .null => none
    | .eager value => some value
    | .lazy _ => none
  items?
    | .eager (.array items) => some (items.map .eager)
    | _ => none
  ofText text := .eager (.string text)
  unwrap
    | .eager _ => none
    | .lazy work => some (work.map .eager)
  resolve info parent _ :=
    match parent with
    | .eager value => .ok (.lazy (property value info.name))
    | .lazy _ => .ok (.lazy (property .null info.name))
  typeOf _
    | .eager value => Resolvers.namedType? (.ofJson value : host.Value)
    | .lazy _ => none

/-- A cell waits for its work or holds its result. -/
def IsCell (session : Session host) (cell : Nat) (work : host.Work) : Prop :=
  session.pendings[cell]? = some (Memo.waiting (PendingSource.work work)) ∨
    session.pendings[cell]? = some (Memo.done (content work))

def represents (session : Session host) (value : host.Value) : Plain → Prop
  | .eager plain => value = .ofJson plain
  | .lazy work => ∃ cell, value = .pending cell ∧ IsCell session cell work

theorem keeps_of_cells {before after : Session host}
    (cells : ∀ cell work, IsCell before cell work → IsCell after cell work) :
    Keeps represents before after := by
  rintro value (plain | work) holds
  · exact holds
  · rcases holds with ⟨cell, rfl, isCell⟩
    exact ⟨cell, rfl, cells cell work isCell⟩

/-- What a cell holds is given to everyone who asks. -/
theorem await_cell {session : Session host} {cell : Nat} {work : host.Work}
    (isCell : IsCell session cell work) :
    ∃ later, Session.await code cell session = (content work, later) ∧
      Keeps represents session later := by
  rcases isCell with waiting | done
  · refine ⟨{ session with pendings := session.pendings.set cell (.done (content work)) }, ?_,
      keeps_of_cells ?_⟩
    · simp only [Session.await, bind, StateT.bind, get, getThe, MonadStateOf.get, StateT.get, pure,
        waiting]
      rfl
    · intro other otherWork isCell
      by_cases same : cell = other
      · subst same
        rcases isCell with otherWaiting | otherDone
        · rw [waiting] at otherWaiting
          cases otherWaiting
          right
          have bound := (List.getElem?_eq_some_iff.mp waiting).1
          simp [bound]
        · rw [waiting] at otherDone
          cases otherDone
      · simpa [IsCell, List.getElem?_set, same] using isCell
  · refine ⟨session, ?_, .refl _⟩
    simp only [Session.await, bind, StateT.bind, get, getThe, MonadStateOf.get, StateT.get, pure,
      done]
    rfl

/-- A new cell changes no other one. -/
theorem postpone_cell (session : Session host) (work : host.Work) :
    IsCell { session with pendings := session.pendings ++ [.waiting (.work work)] }
        session.pendings.length work ∧
      Keeps represents session
        { session with pendings := session.pendings ++ [.waiting (.work work)] } := by
  constructor
  · left
    simp
  · apply keeps_of_cells
    intro cell other isCell
    have bound : cell < session.pendings.length := by
      rcases isCell with waiting | done
      · exact (List.getElem?_eq_some_iff.mp waiting).1
      · exact (List.getElem?_eq_some_iff.mp done).1
    simpa [IsCell, List.getElem?_append_left bound] using isCell

theorem isPure (schema : Schema) (context : Context) :
    (executor schema).IsPure context plainCode represents where
  isNull := by
    rintro session value (plain | work) holds
    · cases holds
      cases plain <;> rfl
    · rcases holds with ⟨cell, rfl, _⟩
      rfl
  json? := by
    rintro session value (plain | work) holds
    · cases holds
      cases plain <;> rfl
    · rcases holds with ⟨cell, rfl, _⟩
      rfl
  items? := by
    rintro session value (plain | work) holds
    · cases holds
      cases plain with
      | array items =>
          refine .some ?_
          rw [List.forall₂_map_left_iff, List.forall₂_map_right_iff]
          exact List.forall₂_same.mpr fun item _ => rfl
      | _ => exact .none
    · rcases holds with ⟨cell, rfl, _⟩
      exact .none
  ofText := fun session text => rfl
  isLazy := by
    rintro session value (plain | work) holds
    · cases holds
      cases plain <;> rfl
    · rcases holds with ⟨cell, rfl, _⟩
      rfl
  eager := by
    rintro session value (plain | work) holds unwrapped
    · cases holds
      cases plain <;> rfl
    · cases unwrapped
  unwrap := by
    rintro session value (plain | work) expected holds unwrapped
    · cases unwrapped
    · cases unwrapped
      rcases holds with ⟨cell, rfl, isCell⟩
      rcases await_cell isCell with ⟨later, awaited, keeps⟩
      refine ⟨content work, later, ?_, keeps, ?_⟩
      · change (some (Session.await code cell session).1, (Session.await code cell session).2) = _
        rw [awaited]
      · cases work with
        | ok value => exact rfl
        | error error => exact rfl
  resolve := by
    rintro session value (plain | work) holds info resolver found arguments
    · cases holds
      cases found
      let parent := (ResolvedValue.ofJson plain : host.Value).json?.getD .null
      have same : property parent info.name = property plain info.name := by
        cases plain <;> rfl
      rcases postpone_cell session (property parent info.name) with ⟨isCell, keeps⟩
      refine ⟨keeps, _, rfl, ?_⟩
      rw [← same]
      exact isCell
    · rcases holds with ⟨cell, rfl, _⟩
      cases found
      rcases postpone_cell session (property .null info.name) with ⟨isCell, keeps⟩
      exact ⟨keeps, _, rfl, isCell⟩
  typeOf := by
    rintro session value (plain | work) holds name
    · cases holds
      exact ⟨.refl _, rfl⟩
    · rcases holds with ⟨cell, rfl, _⟩
      exact ⟨.refl _, rfl⟩

def schema : Schema :=
  (Schema.ofSource
    ("type Node { name: String secret: String! word: String! } "
      ++ "type Query { left: Node right: Node! }")).toOption.getD {}

/-- Two fields of one object fail, one of them after the object has become null. -/
def document : Document :=
  ((Document.parse "query { left { secret word } right { name } }").toOption.map
    (·.document)).getD ⟨[], ⟨0, 0⟩⟩

def plan : Plan :=
  Plan.ofDocument schema document none

def root : Json :=
  .object [("left", .object []), ("right", .object [("name", .string "right")])]

def request : Request host where
  root := .ofJson root

def session : Session host where
  state := ()

theorem evaluation :
    ((executor schema).prepare plan none []).toOption.any (fun (operation, bindings) =>
      ((plainCode.environment (executor schema) bindings).evaluateOperation operation
        (.eager root)).errors.length == 2) = true ∧
      ((executor schema).execute plan request session).1.messages = ["Field not found: secret"] := by
  decide +kernel

theorem data_as_evaluated :
    represents session request.root (.eager root) ∧ ∃ operation bindings,
      (executor schema).prepare plan request.operation request.bindings = .ok (operation, bindings) ∧
      let evaluation := (plainCode.environment (executor schema) bindings).evaluateOperation
        operation (.eager root)
      let response := ((executor schema).execute plan request session).1
      response.data = some (evaluation.result.getD .null) ∧
        (∀ error ∈ response.errors.getD [], error ∈ evaluation.errors) ∧
        evaluation.errors.length = 2 ∧ response.messages = ["Field not found: secret"] := by
  rcases evaluation with ⟨fails, messages⟩
  rcases exists_ok_of_any fails with ⟨⟨operation, bindings⟩, prepared, twice⟩
  have starts : represents session request.root (.eager root) := rfl
  rcases Executor.execute_reproduces (isPure schema request.context) starts prepared with
    ⟨data, errors, _⟩
  exact ⟨starts, operation, bindings, prepared, data, errors, eq_of_beq twice, messages⟩

end LazyFields

end GraphQL

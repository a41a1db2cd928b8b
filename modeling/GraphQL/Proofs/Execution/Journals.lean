import GraphQL.Execution.Executor
import GraphQL.Proofs.Execution.Batches
import GraphQL.Proofs.Execution.Views

/-!
# Journals

A journal is a session with the history of its batches. The code that serves a request keeps one:
resolving a field, naming a type and forcing a value do to the session what they do otherwise, and
add to the history what they do with batches. So the tables of batches reflect the histories, in the
middle of an execution as well.
-/

namespace GraphQL

variable {host : Host} {α : Type}

namespace Session

/-- What awaiting a pending value does with batches. -/
def awaitEvents (code : HostCode host) (cell : Nat) (session : Session host) : BatchHistory host :=
  match session.pendings[cell]? with
  | some (.waiting (.work work)) => performEvents (code.answer work) session
  | some (.waiting (.member member)) => loadEvents code member session
  | _ => []

/-- What computing a deferred value does with batches. -/
def computeEvents (code : HostCode host) (cell : Nat) (session : Session host) :
    BatchHistory host :=
  match session.deferrals[cell]? with
  | some (.waiting work) => performEvents (code.compute work) session
  | _ => []

end Session

namespace Accessors

variable (accessors : Accessors host) (code : HostCode host)

/-- What unwrapping a value does with batches. -/
def unwrapEvents (value : host.Value) (session : Session host) : BatchHistory host :=
  match value with
  | .pending cell => Session.awaitEvents code cell session
  | value =>
      match accessors.unwrapping? value with
      | none => []
      | some (.deferred cell) => Session.computeEvents code cell session
      | some (.action action) => Session.performEvents action session

/-- What forcing a value does with batches. -/
def forceEvents : Nat → host.Value → Session host → BatchHistory host
  | 0, _, _ => []
  | steps + 1, value, session =>
      accessors.unwrapEvents code value session ++
        match accessors.unwrap code value session with
        | (some (.ok next), after) => forceEvents steps next after
        | _ => []

end Accessors

/-- What resolving a field does with batches. -/
def Executor.resolveEvents (executor : Executor host) (bindings : Variables) (context : Context)
    (node : PlanNode) (parent : host.Value) (path : ResponsePath) (session : Session host) :
    List (Enqueued host) :=
  if node.name = Schema.typenameField.name then []
  else
    match executor.schema.field? node.ownerType node.name,
        executor.resolvers.field? node.ownerType node.name with
    | some field, some resolver =>
        match coerceArguments executor.schema field node.arguments bindings with
        | .error _ => []
        | .ok arguments =>
            let info : FieldInfo :=
              { name := node.name
                parentType := node.ownerType
                returnType := node.returnType.text
                path
                selected := node.selectedKeys }
            Session.enqueued (resolver { parent, arguments, context, info }) session
    | _, _ => []

/-- A session with the history of its batches. -/
structure Journal (host : Host) where
  session : Session host
  events : BatchHistory host := []

namespace Journal

/-- Asks a question and notes what that does with batches. -/
def note (question : StateM (Session host) α) (events : Session host → BatchHistory host) :
    StateM (Journal host) α := fun journal =>
  ((question journal.session).1,
    { session := (question journal.session).2
      events := journal.events ++ events journal.session })

/-- The batches are what the history leads to, and no loader is being called. -/
structure IsSound (journal : Journal host) : Prop where
  reflects : journal.session.batches.Reflects journal.events
  settled : ∀ number, ¬journal.session.batches.IsLoading number

end Journal

/-- The environment of an executor that keeps a journal. -/
def Executor.journaled (executor : Executor host) (bindings : Variables) (context : Context) :
    Environment (Journal host) host.Object where
  schema := executor.schema
  bindings := bindings
  isLazy := executor.accessors.isLazy
  force value :=
    Journal.note (executor.accessors.force executor.code executor.limits.maxLazyDepth value)
      (executor.accessors.forceEvents executor.code executor.limits.maxLazyDepth value)
  resolve node parent path :=
    Journal.note (executor.resolve bindings context node parent path)
      fun session =>
        (executor.resolveEvents bindings context node parent path session).map .joined
  typeOf typeName value :=
    Journal.note (Session.perform (executor.resolvers.typeOf typeName value context))
      (Session.performEvents (executor.resolvers.typeOf typeName value context))

/-- What a question is said to do with batches is what the tables show. -/
def Tracks (question : StateM (Session host) α) (events : Session host → BatchHistory host) : Prop :=
  ∀ journal : Journal host, journal.IsSound → (Journal.note question events journal).2.IsSound

namespace Tracks

theorem pure (value : α) :
    Tracks (Pure.pure value : StateM (Session host) α) fun _ => [] := by
  rintro ⟨session, history⟩ ⟨reflects, settled⟩
  refine ⟨?_, settled⟩
  change session.batches.Reflects (history ++ [])
  rwa [List.append_nil]

theorem perform (action : Action host α) :
    Tracks (Session.perform action) (Session.performEvents action) := by
  rintro ⟨session, history⟩ ⟨reflects, settled⟩
  refine ⟨Session.reflects_perform action reflects, ?_⟩
  rintro number ⟨key, loader, isLoading⟩
  exact settled number ⟨key, loader, (Session.getElem?_perform_loading action session).mp isLoading⟩

theorem load (code : HostCode host) (member : BatchMember) :
    Tracks (Session.load code member) (Session.loadEvents code member) := by
  rintro ⟨session, history⟩ ⟨reflects, settled⟩
  rcases Session.reflects_load reflects settled member with ⟨further, stillSettled⟩
  exact ⟨further, stillSettled⟩

theorem await (code : HostCode host) (cell : Nat) :
    Tracks (Session.await code cell) (Session.awaitEvents code cell) := by
  rintro ⟨session, history⟩ sound
  have unchanged := Tracks.pure (.ok .null : host.Result) ⟨session, history⟩ sound
  simp only [Journal.note, Session.await, Session.awaitEvents, bind, StateT.bind, get, getThe,
    MonadStateOf.get, StateT.get, Pure.pure]
  rcases session.pendings[cell]? with _ | (work | member) | result
  · exact unchanged
  · have performed := Tracks.perform (code.answer work) ⟨session, history⟩ sound
    exact ⟨performed.reflects, performed.settled⟩
  · have loaded := Tracks.load code member ⟨session, history⟩ sound
    exact ⟨loaded.reflects, loaded.settled⟩
  · exact unchanged

theorem compute (code : HostCode host) (cell : Nat) :
    Tracks (Session.compute code cell) (Session.computeEvents code cell) := by
  rintro ⟨session, history⟩ sound
  have unchanged := Tracks.pure (.null : host.Value) ⟨session, history⟩ sound
  simp only [Journal.note, Session.compute, Session.computeEvents, bind, StateT.bind, get, getThe,
    MonadStateOf.get, StateT.get, Pure.pure]
  rcases session.deferrals[cell]? with _ | work | value
  · exact unchanged
  · have performed := Tracks.perform (code.compute work) ⟨session, history⟩ sound
    exact ⟨performed.reflects, performed.settled⟩
  · exact unchanged

theorem unwrap (accessors : Accessors host) (code : HostCode host) (value : host.Value) :
    Tracks (accessors.unwrap code value) (accessors.unwrapEvents code value) := by
  intro journal sound
  have unchanged := Tracks.pure (none : Option host.Result) journal sound
  cases value with
  | pending cell => exact Tracks.await code cell journal sound
  | _ =>
      simp only [Journal.note, Accessors.unwrap, Accessors.unwrapEvents]
      generalize accessors.unwrapping? _ = found
      rcases found with _ | cell | action
      · exact unchanged
      · exact Tracks.compute code cell journal sound
      · exact Tracks.perform action journal sound

theorem forceWithin (accessors : Accessors host) (code : HostCode host) (limit steps : Nat)
    (value : host.Value) :
    Tracks (accessors.forceWithin code limit steps value)
      (accessors.forceEvents code steps value) := by
  induction steps generalizing value with
  | zero => exact Tracks.pure _
  | succ steps ih =>
      intro journal sound
      have unwrapped := Tracks.unwrap accessors code value journal sound
      simp only [Journal.note, Accessors.forceWithin, Accessors.forceEvents, bind, StateT.bind]
      rw [← List.append_assoc]
      simp only [Journal.note] at unwrapped
      generalize accessors.unwrap code value journal.session = run at unwrapped ⊢
      rcases run with ⟨_ | _ | next, after⟩
      · rw [List.append_nil]
        exact unwrapped
      · rw [List.append_nil]
        exact unwrapped
      · exact ih next ⟨after, _⟩ unwrapped

theorem resolve (executor : Executor host) (bindings : Variables) (context : Context)
    (node : PlanNode) (parent : host.Value) (path : ResponsePath) :
    Tracks (executor.resolve bindings context node parent path) fun session =>
      (executor.resolveEvents bindings context node parent path session).map .joined := by
  intro journal sound
  have unchanged := Tracks.pure (.ok .null : Except ExecutionError host.Value) journal sound
  simp only [Journal.note, Executor.resolve, Executor.resolveEvents]
  by_cases isName : node.name = Schema.typenameField.name
  · rw [if_pos isName, if_pos isName]
    exact unchanged
  rw [if_neg isName, if_neg isName]
  rcases executor.schema.field? node.ownerType node.name with _ | field
  · exact unchanged
  rcases executor.resolvers.field? node.ownerType node.name with _ | resolver
  · exact unchanged
  simp only
  rcases coerceArguments executor.schema field node.arguments bindings with _ | arguments
  · exact unchanged
  have performed := Tracks.perform (resolver
    { parent, arguments, context,
      info :=
        { name := node.name
          parentType := node.ownerType
          returnType := node.returnType.text
          path
          selected := node.selectedKeys } }) journal sound
  simp only [Journal.note, Session.performEvents] at performed
  simp only [bind, StateT.bind]
  generalize Session.perform _ journal.session = run at performed ⊢
  rcases run with ⟨_ | _, after⟩
  · exact performed
  · exact performed

end Tracks

/-! ## Enqueuing while resolving only -/

/-- An action makes no input join a batch. -/
def Action.EnqueuesNothing : Action host α → Prop
  | .done _ => True
  | .change _ next => ∀ state, (next state).EnqueuesNothing
  | .postpone _ next => ∀ cell, (next cell).EnqueuesNothing
  | .defer _ next => ∀ cell, (next cell).EnqueuesNothing
  | .enqueue .. => False

/-- Loaders and other lazy values enqueue nothing, so only resolvers do. -/
structure Executor.EnqueuesInResolvers (executor : Executor host) : Prop where
  answer : ∀ work, (executor.code.answer work).EnqueuesNothing
  compute : ∀ work, (executor.code.compute work).EnqueuesNothing
  load : ∀ loader inputs, (executor.code.load loader inputs).EnqueuesNothing
  accessor : ∀ value action, executor.accessors.unwrapping? value = some (.action action) →
    action.EnqueuesNothing

theorem Action.EnqueuesNothing.enqueued_eq_nil {action : Action host α}
    (nothing : action.EnqueuesNothing) (session : Session host) :
    Session.enqueued action session = [] := by
  induction action generalizing session with
  | done result => rfl
  | change update next ih => exact ih _ (nothing _) _
  | postpone source next ih => exact ih _ (nothing _) _
  | defer work next ih => exact ih _ (nothing _) _
  | enqueue key input loader next ih => exact nothing.elim

theorem Action.EnqueuesNothing.performEvents_eq_nil {action : Action host α}
    (nothing : action.EnqueuesNothing) (session : Session host) :
    Session.performEvents action session = [] := by
  rw [Session.performEvents, nothing.enqueued_eq_nil, List.map_nil]

namespace Executor.EnqueuesInResolvers

variable {executor : Executor host} (quiet : executor.EnqueuesInResolvers)

include quiet

theorem entries_loadEvents (member : BatchMember) (session : Session host) :
    (Session.loadEvents executor.code member session).entries = [] := by
  unfold Session.loadEvents Session.groupEvents
  split
  next key loader inputs _ =>
    simp [(quiet.load loader inputs).performEvents_eq_nil, BatchHistory.entries,
      BatchHistory.enqueued?]
  next => rfl

theorem entries_unwrapEvents (value : host.Value) (session : Session host) :
    (executor.accessors.unwrapEvents executor.code value session).entries = [] := by
  unfold Accessors.unwrapEvents
  split
  next cell =>
    unfold Session.awaitEvents
    split
    next work _ => rw [(quiet.answer work).performEvents_eq_nil]; rfl
    next member _ => exact quiet.entries_loadEvents member session
    next => rfl
  next =>
    split
    next => rfl
    next cell _ =>
      unfold Session.computeEvents
      split
      next work _ => rw [(quiet.compute work).performEvents_eq_nil]; rfl
      next => rfl
    next action found => rw [(quiet.accessor _ action found).performEvents_eq_nil]; rfl

/-- Forcing a value enqueues nothing. -/
theorem entries_forceEvents (steps : Nat) (value : host.Value) (session : Session host) :
    (executor.accessors.forceEvents executor.code steps value session).entries = [] := by
  induction steps generalizing value session with
  | zero => rfl
  | succ steps ih =>
      rw [Accessors.forceEvents, BatchHistory.entries_append, quiet.entries_unwrapEvents]
      split
      · exact ih _ _
      · rfl

end Executor.EnqueuesInResolvers

end GraphQL

import GraphQL.Execution.Executor
import GraphQL.Proofs.Execution.Views

/-!
# Traces of executions

An execution that is recorded does what it does otherwise and writes down what it asks for: the
fields that it resolves, the beginning of every round with the tasks that wait, and the values that
it forces. Without the trace a recorded execution is the execution itself.
-/

namespace GraphQL

/-- The resolving of a field, with its answer. -/
structure Call (Object : Type) where
  node : PlanNode
  path : ResponsePath
  answer : Except ExecutionError (ResolvedValue Object)

/-- What is written down of an execution. -/
inductive Occurrence (Object : Type) where
  | resolved (call : Call Object)
  /-- A round begins, with the data so far and the tasks that wait. -/
  | opened (tree : ResponseTree) (waiting : List (Task Object))
  /-- The value of a task is forced. -/
  | forced (task : Task Object) (answer : Except ExecutionError (ResolvedValue Object))

/-- The state of an environment, with the trace of what it was asked for. -/
structure Record (σ Object : Type) where
  outside : σ
  trace : List (Occurrence Object) := []

variable {σ Object α β : Type}

namespace Run

/-- Writes down what happens. -/
def log (occurrence : Occurrence Object) : Run (Record σ Object) Object Unit :=
  ask fun record => ((), { record with trace := record.trace ++ [occurrence] })

end Run

/-- Answers a question, and leaves the trace as it is. -/
def Record.lift (question : StateM σ α) : StateM (Record σ Object) α := fun record =>
  let (answer, outside) := question record.outside
  (answer, { record with outside })

namespace Environment

variable (env : Environment σ Object)

/-- The environment that writes down which fields it resolves. -/
def recorded : Environment (Record σ Object) Object where
  schema := env.schema
  bindings := env.bindings
  isLazy := env.isLazy
  force value := Record.lift (env.force value)
  resolve node parent path := fun record =>
    let (answer, outside) := env.resolve node parent path record.outside
    (answer, { outside, trace := record.trace ++ [.resolved { node, path, answer }] })
  typeOf name value := Record.lift (env.typeOf name value)

/-- Forces the values of some tasks, and writes that down. -/
def recordedForceAll : List (Task Object) →
    Run (Record σ Object) Object
      (List (Task Object × Except ExecutionError (ResolvedValue Object)))
  | [] => return []
  | task :: rest => do
      let forced ← Run.ask (env.recorded.force task.value)
      Run.log (.forced task forced)
      return (task, forced) :: (← recordedForceAll rest)

/-- Does all tasks that wait, and writes down what that begins with. -/
def recordedRound (tree : ResponseTree) : Run (Record σ Object) Object ResponseTree := do
  let waiting := (← get).queue
  modify fun progress => { progress with queue := [] }
  Run.log (.opened tree waiting)
  let forced ← env.recordedForceAll (waiting.filter fun task => tree.isLive task.path)
  env.recorded.finishAll tree forced

def recordedSettle : Nat → ResponseTree → Run (Record σ Object) Object ResponseTree
  | 0, tree => return tree
  | rounds + 1, tree => do
      if (← get).queue.isEmpty then return tree
      else recordedSettle rounds (← env.recordedRound tree)

def recordedTogether (children : PlanChildren) (root : ResolvedValue Object) :
    Run (Record σ Object) Object ResponseTree := do
  let fields ← env.recorded.executeFields children root []
  env.recordedSettle (PlanNode.childrenPlaces children) ((fields.map .object).getD .null)

def recordedInTurn (bound : Nat) (root : ResolvedValue Object) :
    List (String × PlanNode) → ResponseTree → Run (Record σ Object) Object ResponseTree
  | [], tree => return tree
  | (_, node) :: rest, tree => do
      if !tree.isLive [] then return tree
      else if !node.isIncluded env.bindings then recordedInTurn bound root rest tree
      else
        let result ← env.recorded.executeField node root [.field node.responseKey]
        let tree := addField tree node.responseKey (!node.returnType.isNonNull) result
        recordedInTurn bound root rest (← env.recordedSettle bound tree)

def recordedOperation (operation : PlanOperation) (root : ResolvedValue Object) :
    Run (Record σ Object) Object ResponseTree :=
  match operation.kind with
  | .mutation =>
      env.recordedInTurn (PlanNode.childrenPlaces operation.children) root operation.children
        (.object [])
  | _ => env.recordedTogether operation.children root

theorem recordedSettle_succ (rounds : Nat) (tree : ResponseTree)
    (progress : Progress (Record σ Object) Object) :
    env.recordedSettle (rounds + 1) tree progress =
      if progress.queue.isEmpty then (tree, progress)
      else env.recordedSettle rounds (env.recordedRound tree progress).1
        (env.recordedRound tree progress).2 := by
  change (if progress.queue.isEmpty = true then Pure.pure tree
    else env.recordedRound tree >>= env.recordedSettle rounds :
      Run (Record σ Object) Object ResponseTree) progress = _
  split <;> rfl

end Environment

/-! ## Without the trace -/

/-- The state of an execution without its trace. -/
def Progress.forget (progress : Progress (Record σ Object) Object) : Progress σ Object where
  outside := progress.outside.outside
  errors := progress.errors
  queue := progress.queue

/-- A run with a trace does what a run without one does. -/
def Erases (traced : Run (Record σ Object) Object α) (plain : Run σ Object α) : Prop :=
  ∀ progress, plain progress.forget = ((traced progress).1, (traced progress).2.forget)

/-- Recording changes no answer. -/
theorem Environment.recorded_projects (env : Environment σ Object) :
    Environment.Projects Record.outside env.recorded env where
  schema := rfl
  bindings := rfl
  isLazy := rfl
  resolve _ _ _ _ := rfl
  typeOf _ _ _ := rfl

namespace Erases

theorem pure (value : α) :
    Erases (Pure.pure value : Run (Record σ Object) Object α) (Pure.pure value : Run σ Object α) :=
  fun _ => rfl

theorem bind {traced : Run (Record σ Object) Object α} {plain : Run σ Object α}
    {after : α → Run (Record σ Object) Object β} {next : α → Run σ Object β}
    (first : Erases traced plain) (rest : ∀ value, Erases (after value) (next value)) :
    Erases (traced >>= after) (plain >>= next) := by
  intro progress
  change next (plain progress.forget).1 (plain progress.forget).2 = _
  rw [first progress]
  exact rest _ _

theorem map {traced : Run (Record σ Object) Object α} {plain : Run σ Object α}
    (first : Erases traced plain) (change : α → β) :
    Erases (do return change (← traced)) (do return change (← plain)) :=
  first.bind fun _ => .pure _

/-- What is only written down is no part of the run. -/
theorem log {occurrence : Occurrence Object} {traced : Run (Record σ Object) Object β}
    {plain : Run σ Object β} (rest : Erases traced plain) :
    Erases (do Run.log occurrence; traced) plain := fun progress =>
  rest { progress with
    outside := { progress.outside with trace := progress.outside.trace ++ [occurrence] } }

theorem ask (question : StateM σ α) :
    Erases (Run.ask (Record.lift question)) (Run.ask question : Run σ Object α) :=
  fun _ => rfl

variable {env : Environment σ Object}

/-! ### Rounds and operations -/

theorem finishAll (tree : ResponseTree)
    (answers : List (Task Object × Except ExecutionError (ResolvedValue Object))) :
    Erases (env.recorded.finishAll tree answers) (env.finishAll tree answers) :=
  Run.Projects.finishAll env.recorded_projects tree answers

theorem forceAll (tasks : List (Task Object)) :
    Erases (env.recordedForceAll tasks) (env.forceAll tasks) := by
  induction tasks with
  | nil => exact .pure _
  | cons task rest ih => exact (ask _).bind fun forced => .log (ih.map _)

theorem round (tree : ResponseTree) : Erases (env.recordedRound tree) (env.round tree) := by
  intro progress
  have forced := @forceAll _ _ env (progress.queue.filter fun task => tree.isLive task.path)
  exact Erases.log (forced.bind (finishAll tree)) { progress with queue := [] }

theorem settle (rounds : Nat) (tree : ResponseTree) :
    Erases (env.recordedSettle rounds tree) (env.settle rounds tree) := by
  induction rounds generalizing tree with
  | zero => exact .pure _
  | succ rounds ih =>
      intro progress
      rw [Environment.settle_succ, Environment.recordedSettle_succ]
      change (if progress.queue.isEmpty = true then _ else _) = _
      by_cases isEmpty : progress.queue.isEmpty = true
      · rw [if_pos isEmpty, if_pos isEmpty]
      · rw [if_neg isEmpty, if_neg isEmpty]
        exact (round tree).bind ih progress

theorem executeTogether (children : PlanChildren) (root : ResolvedValue Object) :
    Erases (env.recordedTogether children root) (env.executeTogether children root) :=
  bind (Run.Projects.executeFields env.recorded_projects _ _ _) fun _ => settle _ _

theorem executeInTurn (bound : Nat) (root : ResolvedValue Object) (children : PlanChildren)
    (tree : ResponseTree) :
    Erases (env.recordedInTurn bound root children tree)
      (env.executeInTurn bound root children tree) := by
  induction children generalizing tree with
  | nil => exact .pure _
  | cons entry rest ih =>
      rcases entry with ⟨key, node⟩
      rw [Environment.recordedInTurn, Environment.executeInTurn]
      split
      · exact .pure _
      · split
        · exact ih _
        · exact bind (Run.Projects.executeField env.recorded_projects _ _ _) fun made =>
            (settle _ _).bind ih

theorem executeOperation (operation : PlanOperation) (root : ResolvedValue Object) :
    Erases (env.recordedOperation operation root) (env.executeOperation operation root) := by
  unfold Environment.recordedOperation Environment.executeOperation
  cases operation.kind with
  | mutation => exact executeInTurn _ _ _ _
  | query => exact executeTogether _ _
  | subscription => exact executeTogether _ _

end Erases

/-! ## Requests -/

namespace Executor

variable {host : Host}

/-- Executes an operation for a request, and records that. -/
def record (executor : Executor host) (request : Request host) (operation : PlanOperation)
    (bindings : Variables) (session : Session host) :
    ResponseTree × Progress (Record (Session host) host.Object) host.Object :=
  (executor.environment bindings request.context).recordedOperation operation request.root
    { outside := { outside := session } }

/-- The response to a request is that of its record. -/
theorem execute_eq_record {executor : Executor host} {plan : Plan} {request : Request host}
    {operation : PlanOperation} {bindings : Variables}
    (prepared : executor.prepare plan request.operation request.bindings = .ok (operation, bindings))
    (session : Session host) :
    executor.execute plan request session =
      let record := executor.record request operation bindings session
      (.ofData record.1.toJson record.2.errors, record.2.outside.outside) := by
  have erases := @Erases.executeOperation _ _ (executor.environment bindings request.context)
    operation request.root { outside := { outside := session } }
  simp only [execute, prepared, record]
  exact congrArg (fun run => (Response.ofData run.1.toJson run.2.errors, run.2.outside)) erases

end Executor

end GraphQL

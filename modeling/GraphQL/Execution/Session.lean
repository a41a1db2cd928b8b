import GraphQL.Execution.Batch
import GraphQL.Execution.Host

/-!
# Sessions

What is kept while host code runs: the results of pending and deferred values, the batches, and the
state of the host. The work of a value runs when the value is first asked for; its result is
remembered and given to everyone who asks later.
-/

namespace GraphQL

/-- A cell that remembers the result of some work. -/
inductive Memo (Source Result : Type) where
  | waiting (source : Source)
  | done (result : Result)

def Memo.isDone {Source Result : Type} : Memo Source Result → Bool
  | waiting _ => false
  | done _ => true

structure Session (host : Host) where
  pendings : List (Memo (PendingSource host) host.Result) := []
  deferrals : List (Memo host.Work host.Value) := []
  batches : BatchTable host.Work host.Value := {}
  state : host.State

namespace Session

variable {host : Host} {α : Type}

/-- Runs an action. -/
def perform : Action host α → Session host → α × Session host
  | .done result, session => (result, session)
  | .change update next, session =>
      perform (next session.state) { session with state := update session.state }
  | .postpone source next, session =>
      perform (next session.pendings.length)
        { session with pendings := session.pendings ++ [.waiting source] }
  | .defer work next, session =>
      perform (next session.deferrals.length)
        { session with deferrals := session.deferrals ++ [.waiting work] }
  | .enqueue key input loader next, session =>
      let (member, batches) := session.batches.enqueue key input loader
      perform (next member) { session with batches }

def isForced (session : Session host) (cell : Nat) : Bool :=
  session.pendings[cell]?.any Memo.isDone

/-- Loads a group unless that was done before. -/
def loadGroup (code : HostCode host) (group : Nat) : StateM (Session host) host.BatchResult := do
  match (← get).batches.groups[group]? with
  | some { stage := .loaded result, .. } => return result
  | some { key, loader, stage := .collecting inputs } =>
      modify fun session => { session with batches := session.batches.setStage group .loading }
      let loaded ← perform (code.load loader inputs)
      let result := checkedBatch key inputs.length loaded
      modify fun session =>
        { session with batches := session.batches.setStage group (.loaded result) }
      return result
  | _ => return .error (.internal "batch result out of range")

/-- The part of a batch that belongs to one member. -/
def load (code : HostCode host) (member : BatchMember) : StateM (Session host) host.Result := do
  match ← loadGroup code member.group with
  | .error error => return .error error
  | .ok values =>
      match values[member.index]? with
      | some value => return .ok value
      | none => return .error (.internal "batch result out of range")

/-- The result of a pending value. -/
def await (code : HostCode host) (cell : Nat) : StateM (Session host) host.Result := do
  match (← get).pendings[cell]? with
  | none => return .error (.internal "pending value lost its future")
  | some (.done result) => return result
  | some (.waiting source) =>
      let result ←
        match source with
        | .work work => perform (code.answer work)
        | .member member => load code member
      modify fun session => { session with pendings := session.pendings.set cell (.done result) }
      return result

/-- The result of a deferred value. -/
def compute (code : HostCode host) (cell : Nat) : StateM (Session host) host.Value := do
  match (← get).deferrals[cell]? with
  | none => return .null
  | some (.done value) => return value
  | some (.waiting work) =>
      let value ← perform (code.compute work)
      modify fun session => { session with deferrals := session.deferrals.set cell (.done value) }
      return value

end Session

end GraphQL

import GraphQL.Execution.Error
import GraphQL.Json

/-!
# Host code

A schema is served by code outside this library: the host. It brings its own objects, work that it
puts off until a result is needed, and a state of its own. What a piece of host code does is an
action, a sequence of the steps that the library offers to it; running one is left to the session in
which it takes place. An action can put work off, but it cannot ask for the result of work that was
put off, so running an action always ends.
-/

namespace GraphQL

/-- What a host brings along. -/
structure Host where
  /-- Values into which only the host looks. -/
  Object : Type
  /-- The name of the type of an object. -/
  kind : Object → String
  /-- Work put off until its result is needed. -/
  Work : Type
  /-- What host code can read and change. -/
  State : Type

/-- A value that host code hands out for a field. A pending or deferred value is the number of the
cell that remembers its result. -/
inductive ResolvedValue (Object : Type) where
  | null
  | json (value : Json)
  | list (items : List (ResolvedValue Object))
  | object (object : Object)
  | pending (cell : Nat)
  | deferred (cell : Nat)

namespace ResolvedValue

variable {Object : Type}

/-- The value for a JSON value; null has one form only. -/
def ofJson : Json → ResolvedValue Object
  | .null => null
  | value => json value

def isNull : ResolvedValue Object → Bool
  | null => true
  | json value => value.isNull
  | _ => false

def json? : ResolvedValue Object → Option Json
  | json value => some value
  | _ => none

end ResolvedValue

/-- One input of a batch: the group it belongs to and its place there. -/
structure BatchMember where
  key : String
  group : Nat
  index : Nat
  deriving DecidableEq, Repr

namespace Host

/-- A value of the host. -/
abbrev Value (host : Host) := ResolvedValue host.Object

/-- What a resolver gives: a value or an error. -/
abbrev Result (host : Host) := Except ResolverError host.Value

/-- What a loader gives: a value for every input, or an error. -/
abbrev BatchResult (host : Host) := Except ResolverError (List host.Value)

end Host

/-- Where the result of a pending value comes from. -/
inductive PendingSource (host : Host) where
  | work (work : host.Work)
  | member (member : BatchMember)

/-- What a piece of host code does until it has a result. -/
inductive Action (host : Host) (α : Type) where
  | done (result : α)
  /-- Changes the state, and goes on with the state as it was before. -/
  | change (update : host.State → host.State) (next : host.State → Action host α)
  /-- Makes a pending value, and goes on with its cell. -/
  | postpone (source : PendingSource host) (next : Nat → Action host α)
  /-- Makes a deferred value, and goes on with its cell. -/
  | defer (work : host.Work) (next : Nat → Action host α)
  /-- Adds an input to the open group of a key. The loader is used if there is none. -/
  | enqueue (key : String) (input : Json) (loader : host.Work)
      (next : BatchMember → Action host α)

namespace Action

variable {host : Host} {α β : Type}

def bind : Action host α → (α → Action host β) → Action host β
  | done result, after => after result
  | change update next, after => .change update fun state => (next state).bind after
  | postpone source next, after => .postpone source fun cell => (next cell).bind after
  | defer work next, after => .defer work fun cell => (next cell).bind after
  | enqueue key input loader next, after =>
      .enqueue key input loader fun joined => (next joined).bind after

instance : Monad (Action host) where
  pure := done
  bind := bind

/-- Changes the state. -/
def update (change : host.State → host.State) : Action host Unit :=
  .change change fun _ => .done ()

/-- A value whose work is done when it is first forced. -/
def pendingWork (work : host.Work) : Action host host.Value :=
  .postpone (.work work) fun cell => .done (.pending cell)

/-- A value that loads a member of a batch when it is forced. -/
def pendingMember (member : BatchMember) : Action host host.Value :=
  .postpone (.member member) fun cell => .done (.pending cell)

/-- A value that is computed when it is first forced. -/
def deferredWork (work : host.Work) : Action host host.Value :=
  .defer work fun cell => .done (.deferred cell)

/-- A value that joins the open group of a key, and loads its part when it is forced. -/
def batch (key : String) (input : Json) (loader : host.Work) : Action host host.Value :=
  .enqueue key input loader pendingMember

/-- Doing nothing after an action is the action. -/
@[simp]
theorem bind_done (action : Action host α) : action.bind done = action := by
  induction action with
  | done => rfl
  | change _ _ ih | postpone _ _ ih | defer _ _ ih | enqueue _ _ _ _ ih => simp [bind, ih]

theorem bind_assoc {γ : Type} (action : Action host α) (second : α → Action host β)
    (third : β → Action host γ) :
    (action.bind second).bind third = action.bind fun result => (second result).bind third := by
  induction action with
  | done => rfl
  | change _ _ ih | postpone _ _ ih | defer _ _ ih | enqueue _ _ _ _ ih => simp [bind, ih]

end Action

/-- What the work of a host does. -/
structure HostCode (host : Host) where
  /-- The work of a pending value. -/
  answer : host.Work → Action host host.Result
  /-- The work of a deferred value, which cannot fail. -/
  compute : host.Work → Action host host.Value
  /-- The work of a loader. -/
  load : host.Work → List Json → Action host host.BatchResult

end GraphQL

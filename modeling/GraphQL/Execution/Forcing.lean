import GraphQL.Execution.Accessors
import GraphQL.Execution.Session

/-!
# Lazy values

A pending value is lazy, and so is an object for whose kind there is an accessor; deferred values
are objects whose accessor is always known. Forcing unwraps a value until it is no longer lazy, and
gives up after so many steps.
-/

namespace GraphQL

/-- What an accessor gives: the result in the cell of a deferred value, or the value that host code
comes to. -/
inductive Unwrapping (host : Host) where
  | deferred (cell : Nat)
  | action (action : Action host host.Value)

/-- The accessors of a host, by the kind of object. An upcast or an accessor of one kind has nothing
to say about objects of another. -/
abbrev Accessors (host : Host) :=
  AccessorTable (host.Value → Option host.Value) (host.Value → Option (Unwrapping host))

namespace Host

variable (host : Host)

/-- The kind of deferred values. -/
def deferredKind : String :=
  "Deferred"

/-- The kind of an object. -/
def kindOf? : host.Value → Option String
  | .object object => some (host.kind object)
  | .deferred _ => some deferredKind
  | _ => none

/-- The accessor of deferred values. -/
def deferredAccessor : host.Value → Option (Unwrapping host)
  | .deferred cell => some (.deferred cell)
  | _ => none

/-- The table that knows deferred values only. -/
def initialAccessors : Accessors host :=
  AccessorTable.register {} deferredKind host.deferredAccessor

end Host

namespace Accessors

variable {host : Host}

/-- The accessor that makes a value lazy. -/
def accessor? (accessors : Accessors host) (value : host.Value) :
    Option (AccessorPath (host.Value → Option host.Value)
      (host.Value → Option (Unwrapping host))) :=
  (host.kindOf? value).bind accessors.answer?

/-- The value has to be forced before it is used. -/
def isLazy (accessors : Accessors host) : host.Value → Bool
  | .pending _ => true
  | value => (accessors.accessor? value).isSome

/-- Looks up the kind of a value, and remembers the answer. -/
def remember (accessors : Accessors host) (value : host.Value) : Accessors host :=
  match host.kindOf? value with
  | some kind => (AccessorTable.lookup accessors kind).2
  | none => accessors

/-- The kind that was registered and makes a value lazy. -/
def accessorKind? (accessors : Accessors host) (value : host.Value) : Option String :=
  (accessors.accessor? value).map AccessorPath.kind

/-- How a value is unwrapped, if it is an object with an accessor. -/
def unwrapping? (accessors : Accessors host) (value : host.Value) : Option (Unwrapping host) := do
  let path ← accessors.accessor? value
  path.accessor (← path.upcasts.foldlM (fun object upcast => upcast object) value)

/-- Unwraps a value once; nothing if it is not lazy. -/
def unwrap (accessors : Accessors host) (code : HostCode host) (value : host.Value) :
    StateM (Session host) (Option host.Result) :=
  match value with
  | .pending cell => return some (← Session.await code cell)
  | value =>
      match accessors.unwrapping? value with
      | none => return none
      | some (.deferred cell) => return some (.ok (← Session.compute code cell))
      | some (.action action) => return some (.ok (← Session.perform action))

/-- Unwraps a value while it is lazy, at most so many times; `limit` is named by the error. -/
def forceWithin (accessors : Accessors host) (code : HostCode host) (limit : Nat) :
    Nat → host.Value → StateM (Session host) (Except ExecutionError host.Value)
  | 0, value =>
      return if accessors.isLazy value then .error (.stillLazy limit) else .ok value
  | steps + 1, value => do
      match ← accessors.unwrap code value with
      | none => return .ok value
      | some (.ok next) => forceWithin accessors code limit steps next
      | some (.error error) => return .error (.resolver error)

/-- Forces a value in at most so many steps. -/
def force (accessors : Accessors host) (code : HostCode host) (limit : Nat) (value : host.Value) :
    StateM (Session host) (Except ExecutionError host.Value) :=
  accessors.forceWithin code limit limit value

end Accessors

end GraphQL

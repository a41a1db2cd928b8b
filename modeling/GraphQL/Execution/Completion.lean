import GraphQL.Execution.Host
import GraphQL.Execution.Tree
import GraphQL.Schema

/-!
# Completing values

The fields of a plan are resolved, and every value is checked against its declared type and becomes
a part of the response tree. A value that is lazy is not forced here: its place waits, and a task in
the queue says what to do when the value is known.

A field that goes wrong records an error and fails. A failure makes its place null if it can be
null; otherwise the object or list around it fails, and what is left of it is not looked at.
-/

namespace GraphQL

/-- What an execution asks of the code that serves the schema; asking may change a state. -/
structure Environment (σ Object : Type) where
  schema : Schema
  bindings : Variables
  isLazy : ResolvedValue Object → Bool
  force : ResolvedValue Object → StateM σ (Except ExecutionError (ResolvedValue Object))
  /-- The value of a field, for the value of the object it belongs to. -/
  resolve : PlanNode → ResolvedValue Object → ResponsePath →
    StateM σ (Except ExecutionError (ResolvedValue Object))
  /-- The name of the object type of a value of an abstract type. -/
  typeOf : String → ResolvedValue Object → StateM σ (Option String)

/-- A lazy value and the place that waits for it. -/
structure Task (Object : Type) where
  path : ResponsePath
  node : PlanNode
  type : TypeRef
  value : ResolvedValue Object

/-- The state of an execution: that of the environment, the errors so far, and the tasks that wait.
-/
structure Progress (σ Object : Type) where
  outside : σ
  errors : List FieldError := []
  queue : List (Task Object) := []

/-- A part of an execution. -/
abbrev Run (σ Object : Type) := StateM (Progress σ Object)

namespace Run

variable {σ Object α : Type}

/-- Asks the environment. -/
def ask (question : StateM σ α) : Run σ Object α := fun progress =>
  let (answer, outside) := question progress.outside
  (answer, { progress with outside })

/-- Records an error of a field, which fails. -/
def fail (node : PlanNode) (path : ResponsePath) (error : ExecutionError) :
    Run σ Object (Option α) := fun progress =>
  let recorded := (error.toFieldError.withPath path).withLocations node.locations
  (none, { progress with errors := progress.errors ++ [recorded] })

/-- Adds a task to the queue; its place waits. -/
def postpone (task : Task Object) : Run σ Object (Option ResponseTree) := fun progress =>
  (some .waiting, { progress with queue := progress.queue ++ [task] })

end Run

/-- The items of a value that can stand for a list. -/
def ResolvedValue.items? {Object : Type} :
    ResolvedValue Object → Option (List (ResolvedValue Object))
  | list items => some items
  | json (.array items) => some (items.map ofJson)
  | _ => none

namespace Environment

variable {σ Object : Type} (env : Environment σ Object)

/-- The object type of a value of a composite type: the type itself, or the possible type that is
named for the value, or the only possible type if none is named. -/
def objectType? (type : SchemaType) (value : ResolvedValue Object) :
    Run σ Object (Option String) := do
  if type.isObject then return some type.name
  let possible := env.schema.possibleTypes type.name
  match ← Run.ask (env.typeOf type.name value) with
  | some name => return if possible.contains name then some name else none
  | none =>
      match possible with
      | [only] => return some only
      | _ => return none

/-- Completes the items of a list one after the other, up to one that fails and cannot be null. -/
def completeItems
    (complete : ResolvedValue Object → ResponsePath → Run σ Object (Option ResponseTree))
    (nullable : Bool) (path : ResponsePath) :
    Nat → List (ResolvedValue Object) → Run σ Object (Option (List ResponseTree))
  | _, [] => return some []
  | position, value :: rest => do
      match ResponseTree.filled nullable (← complete value (path ++ [.index position])) with
      | none => return none
      | some item =>
          return (← completeItems complete nullable path (position + 1) rest).map (item :: ·)

/-- Completes a value of a named type; `type` is the type with what stands around the name, and
`fields` completes the fields of an object whose type is known. -/
def completeNamed (node : PlanNode)
    (fields : String → ResolvedValue Object → ResponsePath → Run σ Object (Option ResponseTree))
    (type : TypeRef) (name : String) (value : ResolvedValue Object) (path : ResponsePath) :
    Run σ Object (Option ResponseTree) := do
  let invalid : Run σ Object (Option ResponseTree) :=
    Run.fail node path (.invalidValue node.ownerType node.name type)
  match env.schema.type? name with
  | none => invalid
  | some found =>
      if found.isLeaf then
        match value with
        | .json value => return some (.leaf value)
        | _ => invalid
      else if found.isComposite then
        match ← env.objectType? found value with
        | some objectType => fields objectType value path
        | none => Run.fail node path (.unresolvedType name node.ownerType node.name)
      else invalid

/-- Completes a value of a type. -/
def completeWith (node : PlanNode)
    (fields : String → ResolvedValue Object → ResponsePath → Run σ Object (Option ResponseTree))
    (type : TypeRef) (value : ResolvedValue Object) (path : ResponsePath) :
    Run σ Object (Option ResponseTree) := do
  if env.isLazy value then Run.postpone { path, node, type, value }
  else if value.isNull then
    if type.isNonNull then Run.fail node path (.nullForNonNull node.ownerType node.name)
    else return some .null
  else
    match type with
    | .nonNull (.nonNull inner) => completeWith node fields inner value path
    | .named name | .nonNull (.named name) => env.completeNamed node fields type name value path
    | .list item | .nonNull (.list item) =>
        match value.items? with
        | none => Run.fail node path (.invalidValue node.ownerType node.name type)
        | some items =>
            let nullable := !item.isNonNull
            let completed ← completeItems (completeWith node fields item) nullable path 0 items
            return completed.map (.list nullable)

mutual

/-- Resolves a field of an object and completes its value. -/
def executeField (node : PlanNode) (parent : ResolvedValue Object) (path : ResponsePath) :
    Run σ Object (Option ResponseTree) := do
  match node with
  | ⟨_, _, _, _, _, _, _, _, typedChildren⟩ =>
      match ← Run.ask (env.resolve node parent path) with
      | .ok value =>
          env.completeWith node (fun type value path => executeTyped typedChildren type value path)
            node.returnType value path
      | .error error => Run.fail node path error

/-- Executes the fields that are selected on an object type. -/
def executeTyped (typedChildren : List (String × List (String × PlanNode))) (type : String)
    (value : ResolvedValue Object) (path : ResponsePath) : Run σ Object (Option ResponseTree) := do
  match typedChildren with
  | [] => return some (.object [])
  | (name, children) :: rest =>
      if name = type then return (← executeFields children value path).map .object
      else executeTyped rest type value path

/-- Executes the included fields of an object, up to one that fails and cannot be null. -/
def executeFields (children : List (String × PlanNode)) (parent : ResolvedValue Object)
    (path : ResponsePath) : Run σ Object (Option (List (String × Bool × ResponseTree))) := do
  match children with
  | [] => return some []
  | (_, node) :: rest =>
      if node.isIncluded env.bindings then
        let nullable := !node.returnType.isNonNull
        let result ← executeField node parent (path ++ [.field node.responseKey])
        match ResponseTree.filled nullable result with
        | none => return none
        | some value =>
            return (← executeFields rest parent path).map ((node.responseKey, nullable, value) :: ·)
      else executeFields rest parent path

end

/-- Completes a value of a type at a field. -/
def complete (node : PlanNode) (type : TypeRef) (value : ResolvedValue Object)
    (path : ResponsePath) : Run σ Object (Option ResponseTree) :=
  env.completeWith node (env.executeTyped node.typedChildren) type value path

end Environment

end GraphQL

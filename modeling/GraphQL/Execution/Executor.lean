import GraphQL.Execution.Coercion
import GraphQL.Execution.Forcing
import GraphQL.Execution.Resolver
import GraphQL.Execution.Settling

/-!
# Executing an operation

One operation of a plan is chosen and checked against the limits; then its fields are resolved by
the code of a host, and the response is made from the tree and the errors.
-/

namespace GraphQL

structure ExecutionLimits where
  /-- How often one lazy value may be unwrapped. -/
  maxLazyDepth : Nat := 64
  /-- How deep the nodes of an operation may nest. -/
  maxDepth : Option Nat := none
  deriving DecidableEq, Repr

/-- A schema with the code that serves it. -/
structure Executor (host : Host) where
  schema : Schema
  code : HostCode host
  resolvers : Resolvers host := {}
  accessors : Accessors host := host.initialAccessors
  limits : ExecutionLimits := {}

/-- What belongs to one request. -/
structure Request (host : Host) where
  operation : Option String := none
  bindings : Variables := []
  root : host.Value
  context : Context := []

/-- The response keys selected below a node, for any object type. -/
def PlanNode.selectedKeys (node : PlanNode) : List String :=
  (node.typedChildren.flatMap fun (_, children) => OrderedMap.keys children).eraseDups

namespace Executor

variable {host : Host}

/-- Chooses the operation and adds the defaults of its variables, unless something speaks against
executing it. -/
def prepare (executor : Executor host) (plan : Plan) (name : Option String)
    (bindings : Variables) : Except ExecutionError (PlanOperation × Variables) := do
  let operation ←
    match plan.operation? name, name with
    | some operation, _ => pure operation
    | none, some name => throw (.unknownOperation name)
    | none, none => throw (if plan.operations.isEmpty then .noOperation else .operationNameRequired)
  if !executor.schema.isObjectType operation.rootType then
    throw (.missingRootType operation.kind)
  let bindings := operation.defaultVariables.override bindings
  match executor.limits.maxDepth with
  | some limit =>
      let depth := operation.depth bindings
      if limit < depth then throw (.tooDeep depth limit) else return (operation, bindings)
  | none => return (operation, bindings)

/-- Resolves a field: its name is known, and any other value comes from its resolver. -/
def resolve (executor : Executor host) (bindings : Variables) (context : Context)
    (node : PlanNode) (parent : host.Value) (path : ResponsePath) :
    StateM (Session host) (Except ExecutionError host.Value) := do
  if node.name = Schema.typenameField.name then
    return .ok (.json (.string node.ownerType))
  match executor.schema.field? node.ownerType node.name,
      executor.resolvers.field? node.ownerType node.name with
  | some field, some resolver =>
      match coerceArguments executor.schema field node.arguments bindings with
      | .error error => return .error (.resolver error)
      | .ok arguments =>
          let info : FieldInfo :=
            { name := node.name
              parentType := node.ownerType
              returnType := node.returnType.text
              path
              selected := node.selectedKeys }
          match ← Session.perform (resolver { parent, arguments, context, info }) with
          | .ok value => return .ok value
          | .error error => return .error (.resolver error)
  | _, _ => return .error (.resolver (.fieldNotFound (Resolvers.key node.ownerType node.name)))

/-- What the execution of a request asks of the host. -/
def environment (executor : Executor host) (bindings : Variables) (context : Context) :
    Environment (Session host) host.Object where
  schema := executor.schema
  bindings := bindings
  isLazy := executor.accessors.isLazy
  force := executor.accessors.force executor.code executor.limits.maxLazyDepth
  resolve := executor.resolve bindings context
  typeOf typeName value := Session.perform (executor.resolvers.typeOf typeName value context)

/-- Executes a request. -/
def execute (executor : Executor host) (plan : Plan) (request : Request host) :
    StateM (Session host) Response := fun session =>
  match executor.prepare plan request.operation request.bindings with
  | .error error => (.ofError error.toFieldError, session)
  | .ok (operation, bindings) =>
      let env := executor.environment bindings request.context
      let (tree, progress) := env.executeOperation operation request.root { outside := session }
      (.ofData tree.toJson progress.errors, progress.outside)

end Executor

end GraphQL

import GraphQL.Execution.Completion

/-!
# Direct evaluation

The reference for executions: the fields of a plan are evaluated depth first, every lazy value is
forced where it stands, and all siblings are evaluated whether or not one of them fails. There is no
queue and no tree of open places; a field or an item gives a value, or a failure that its caller
turns into a null where there can be one and hands on otherwise.

What is asked of host code are functions here: the answers depend on nothing but the values, the
fields and the places that are asked about.
-/

namespace GraphQL

/-- What an execution asks of code without effects, whose values are of some type. -/
structure PureEnvironment (Value : Type) where
  schema : Schema
  bindings : Variables
  isNull : Value → Bool
  json? : Value → Option Json
  /-- The items of a value that can stand for a list. -/
  items? : Value → Option (List Value)
  force : Value → Except ExecutionError Value
  /-- The value of a field, for the value of the object it belongs to. -/
  resolve : PlanNode → Value → ResponsePath → Except ExecutionError Value
  /-- The name of the object type of a value of an abstract type. -/
  typeOf : String → Value → Option String

/-- What an evaluation gives, unless it fails, and the errors that it meets. -/
structure Evaluation (α : Type) where
  result : Option α
  errors : List FieldError

/-- An error as it is recorded for a field. -/
def ExecutionError.recorded (error : ExecutionError) (node : PlanNode) (path : ResponsePath) :
    FieldError :=
  (error.toFieldError.withPath path).withLocations node.locations

namespace Evaluation

variable {α β : Type}

def fail (node : PlanNode) (path : ResponsePath) (error : ExecutionError) : Evaluation α :=
  { result := none, errors := [error.recorded node path] }

def map (change : α → β) (evaluation : Evaluation α) : Evaluation β :=
  { evaluation with result := evaluation.result.map change }

/-- What stands at a place with a result: for a failure null if the place can be null. -/
def filled (nullable : Bool) : Option Json → Option Json
  | some value => some value
  | none => if nullable then some .null else none

/-- A value at a place before others: all of them, if none hands on a failure. -/
def before (nullable : Bool) (name : Json → α) (first : Evaluation Json)
    (others : Evaluation (List α)) : Evaluation (List α) :=
  { result := do
      let value ← filled nullable first.result
      return name value :: (← others.result)
    errors := first.errors ++ others.errors }

end Evaluation

namespace PureEnvironment

variable {Value : Type} (env : PureEnvironment Value)

/-- The object type of a value of a composite type. -/
def objectType? (type : SchemaType) (value : Value) : Option String :=
  if type.isObject then some type.name
  else
    let possible := env.schema.possibleTypes type.name
    match env.typeOf type.name value with
    | some name => if possible.contains name then some name else none
    | none =>
        match possible with
        | [only] => some only
        | _ => none

/-- Evaluates the items of a list. -/
def evaluateItems (evaluate : Value → ResponsePath → Evaluation Json) (nullable : Bool)
    (path : ResponsePath) : Nat → List Value → Evaluation (List Json)
  | _, [] => { result := some [], errors := [] }
  | position, value :: rest =>
      (evaluate value (path ++ [.index position])).before nullable id
        (evaluateItems evaluate nullable path (position + 1) rest)

/-- Completes a value of a named type; `type` is the type with what stands around the name, and
`fields` evaluates the fields of an object whose type is known. -/
def completeNamed (node : PlanNode)
    (fields : String → Value → ResponsePath → Evaluation Json) (type : TypeRef) (name : String)
    (value : Value) (path : ResponsePath) : Evaluation Json :=
  let invalid : Evaluation Json := .fail node path (.invalidValue node.ownerType node.name type)
  match env.schema.type? name with
  | none => invalid
  | some found =>
      if found.isLeaf then
        match env.json? value with
        | some json => { result := some json, errors := [] }
        | none => invalid
      else if found.isComposite then
        match env.objectType? found value with
        | some objectType => fields objectType value path
        | none => .fail node path (.unresolvedType name node.ownerType node.name)
      else invalid

/-- Forces a value and goes on with it. -/
def forced (node : PlanNode) (complete : Value → ResponsePath → Evaluation Json) (value : Value)
    (path : ResponsePath) : Evaluation Json :=
  match env.force value with
  | .ok value => complete value path
  | .error error => .fail node path error

/-- Completes a value of a type that has been forced. -/
def completeWith (node : PlanNode) (fields : String → Value → ResponsePath → Evaluation Json)
    (type : TypeRef) (value : Value) (path : ResponsePath) : Evaluation Json :=
  if env.isNull value then
    if type.isNonNull then .fail node path (.nullForNonNull node.ownerType node.name)
    else { result := some .null, errors := [] }
  else
    match type with
    | .nonNull (.nonNull inner) => completeWith node fields inner value path
    | .named name | .nonNull (.named name) => env.completeNamed node fields type name value path
    | .list item | .nonNull (.list item) =>
        match env.items? value with
        | none => .fail node path (.invalidValue node.ownerType node.name type)
        | some items =>
            (evaluateItems (env.forced node (completeWith node fields item)) (!item.isNonNull) path 0
              items).map .array

mutual

/-- Resolves a field of an object and completes its value. -/
def evaluateField (node : PlanNode) (parent : Value) (path : ResponsePath) : Evaluation Json :=
  match node with
  | ⟨_, _, _, _, _, _, _, _, typedChildren⟩ =>
      match env.resolve node parent path with
      | .ok value =>
          env.forced node
            (env.completeWith node (fun type value path => evaluateTyped typedChildren type value path)
              node.returnType)
            value path
      | .error error => .fail node path error

/-- Evaluates the fields that are selected on an object type. -/
def evaluateTyped (typedChildren : List (String × List (String × PlanNode))) (type : String)
    (value : Value) (path : ResponsePath) : Evaluation Json :=
  match typedChildren with
  | [] => { result := some (.object []), errors := [] }
  | (name, children) :: rest =>
      if name = type then (evaluateFields children value path).map .object
      else evaluateTyped rest type value path

/-- Evaluates the included fields of an object. -/
def evaluateFields (children : List (String × PlanNode)) (parent : Value) (path : ResponsePath) :
    Evaluation (List (String × Json)) :=
  match children with
  | [] => { result := some [], errors := [] }
  | (_, node) :: rest =>
      if node.isIncluded env.bindings then
        (evaluateField node parent (path ++ [.field node.responseKey])).before
          (!node.returnType.isNonNull) (fun value => (node.responseKey, value))
          (evaluateFields rest parent path)
      else evaluateFields rest parent path

end

/-- Evaluates the fields of an operation. -/
def evaluateOperation (operation : PlanOperation) (root : Value) : Evaluation Json :=
  (env.evaluateFields operation.children root []).map .object

end PureEnvironment

end GraphQL

import GraphQL.Document.Executable
import GraphQL.Schema.Type

/-!
# Plans

What is executed in place of a document. Fragments are resolved: every field of an operation is a
node that lists its children once for every object type its value can have, merged by response key.
What is known only with a request stays in the plan: variables in arguments, and the conditions
under which each appearance of a field counts.
-/

namespace GraphQL

/-- The values of the variables of a request. -/
abbrev Variables := OrderedMap Json

/-- An argument value in which variables are not yet replaced. -/
inductive PlanValue where
  | var (name : String)
  | int (value : Int)
  | float (value : Float)
  | string (value : String)
  | boolean (value : Bool)
  | null
  | enum (name : String)
  | list (items : List PlanValue)
  | object (fields : List (String × PlanValue))
  deriving Inhabited

namespace PlanValue

mutual

/-- The value with its variables replaced; one without a value becomes null. -/
def resolve (bindings : Variables) : PlanValue → Json
  | var name => (bindings.find? name).getD .null
  | int value => .int value
  | float value => if value.isFinite then .float value else .null
  | string value => .string value
  | boolean value => .bool value
  | null => .null
  | enum name => .string name
  | list items => .array (resolveItems bindings items)
  | object fields => .object (resolveFields bindings fields)

def resolveItems (bindings : Variables) : List PlanValue → List Json
  | [] => []
  | item :: rest => resolve bindings item :: resolveItems bindings rest

def resolveFields (bindings : Variables) : List (String × PlanValue) → List (String × Json)
  | [] => []
  | (name, value) :: rest => (name, resolve bindings value) :: resolveFields bindings rest

end

mutual

/-- The names of the variables in a value, in order and with repetitions. -/
def variableNames : PlanValue → List String
  | var name => [name]
  | list items => itemVariables items
  | object fields => fieldVariables fields
  | _ => []

def itemVariables : List PlanValue → List String
  | [] => []
  | item :: rest => variableNames item ++ itemVariables rest

def fieldVariables : List (String × PlanValue) → List String
  | [] => []
  | (_, value) :: rest => variableNames value ++ fieldVariables rest

end

end PlanValue

inductive ConditionKind where
  | skip
  | inclusion
  deriving DecidableEq, Repr

/-- A condition on a selection, with the value that decides it. -/
structure PlanCondition where
  kind : ConditionKind
  value : PlanValue

/-- The condition holds; only the value true counts as true. -/
def PlanCondition.passes (condition : PlanCondition) (bindings : Variables) : Bool :=
  let flag :=
    match condition.value.resolve bindings with
    | .bool value => value
    | _ => false
  match condition.kind with
  | .skip => !flag
  | .inclusion => flag

/-- A field merged from all of its appearances, as it is resolved on one object type. -/
structure PlanNode where
  responseKey : String
  name : String
  ownerType : String
  returnType : TypeRef
  arguments : List (String × PlanValue)
  spans : List Span
  locations : List Location
  /-- The conditions of every appearance. -/
  conditions : List (List PlanCondition)
  /-- The children for every object type that a value of the field can have. -/
  typedChildren : List (String × List (String × PlanNode))

/-- Nodes by response key. -/
abbrev PlanChildren := OrderedMap PlanNode

namespace PlanNode

/-- All conditions of some appearance hold. -/
def isIncluded (node : PlanNode) (bindings : Variables) : Bool :=
  node.conditions.any fun conditions => conditions.all (·.passes bindings)

/-- The children for a value of an object type. -/
def childrenFor? (node : PlanNode) (objectType : String) : Option PlanChildren :=
  OrderedMap.find? node.typedChildren objectType

mutual

/-- The length of the longest chain of included nodes that starts with this one. -/
def depth (bindings : Variables) (node : PlanNode) : Nat :=
  match node with
  | ⟨_, _, _, _, _, _, _, _, typedChildren⟩ => 1 + typedDepth bindings typedChildren

def typedDepth (bindings : Variables) : List (String × List (String × PlanNode)) → Nat
  | [] => 0
  | (_, children) :: rest => max (childrenDepth bindings children) (typedDepth bindings rest)

/-- The length of the longest chain of included nodes among some children. -/
def childrenDepth (bindings : Variables) : List (String × PlanNode) → Nat
  | [] => 0
  | (_, node) :: rest =>
      max (if node.isIncluded bindings then depth bindings node else 0)
        (childrenDepth bindings rest)

end

end PlanNode

/-- A variable that an operation declares. -/
structure PlanVariable where
  name : String
  type : TypeRef
  default? : Option Json

structure PlanOperation where
  name : Option String
  kind : OperationKind
  rootType : String
  variableDefinitions : List PlanVariable
  children : PlanChildren
  span : Span

namespace PlanOperation

/-- The variables that have a default, with it. -/
def defaultVariables (operation : PlanOperation) : Variables :=
  OrderedMap.ofPairs (operation.variableDefinitions.filterMap fun declared =>
    declared.default?.map fun value => (declared.name, value))

def depth (operation : PlanOperation) (bindings : Variables) : Nat :=
  PlanNode.childrenDepth bindings operation.children

end PlanOperation

structure PlanFragment where
  name : String
  typeCondition : String
  typedChildren : OrderedMap PlanChildren

/-- The operations and fragments of a document; an operation without a name has the empty name. -/
structure Plan where
  operations : OrderedMap PlanOperation := []
  fragments : OrderedMap PlanFragment := []

/-- The operation with a name; without one, the only operation. -/
def Plan.operation? (plan : Plan) : Option String → Option PlanOperation
  | some name => plan.operations.find? name
  | none =>
      match plan.operations with
      | [(_, operation)] => some operation
      | _ => none

end GraphQL

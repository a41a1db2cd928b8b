import GraphQL.Execution.Completion

/-!
# Settling lazy values

Tasks are done in rounds. A round takes all tasks that wait, leaves out those whose place is gone,
forces the values of the others and then completes them in the same order; what is lazy inside a
completed value waits for the next round.

A task of one round lies strictly below one of the round before: deeper in the plan, or in a list.
So the rounds are bounded by the number of places on a chain of the plan.
-/

namespace GraphQL

/-- How many lists a type has around its name. -/
def TypeRef.listDepth : TypeRef → Nat
  | named _ => 0
  | list item => item.listDepth + 1
  | nonNull inner => inner.listDepth

namespace PlanNode

mutual

/-- The largest number of places on a chain of nodes that starts with this one: one for the value of
a node and one for every list around it. -/
def places (node : PlanNode) : Nat :=
  match node with
  | ⟨_, _, _, returnType, _, _, _, _, typedChildren⟩ =>
      1 + returnType.listDepth + typedPlaces typedChildren

def typedPlaces : List (String × List (String × PlanNode)) → Nat
  | [] => 0
  | (_, children) :: rest => max (childrenPlaces children) (typedPlaces rest)

def childrenPlaces : List (String × PlanNode) → Nat
  | [] => 0
  | (_, node) :: rest => max (places node) (childrenPlaces rest)

end

end PlanNode

namespace Environment

variable {σ Object : Type} (env : Environment σ Object)

/-- Puts what became of a lazy value at its place, unless the place is gone. -/
def finish (tree : ResponseTree) (task : Task Object)
    (forced : Except ExecutionError (ResolvedValue Object)) : Run σ Object ResponseTree := do
  if tree.isLive task.path then
    let result ←
      match forced with
      | .ok value => env.complete task.node task.type value task.path
      | .error error => Run.fail task.node task.path error
    return (tree.place task.path result).getD .null
  else return tree

/-- Forces the values of some tasks, in order. -/
def forceAll : List (Task Object) →
    Run σ Object (List (Task Object × Except ExecutionError (ResolvedValue Object)))
  | [] => return []
  | task :: rest => do
      let forced ← Run.ask (env.force task.value)
      return (task, forced) :: (← forceAll rest)

/-- Finishes some tasks, in order. -/
def finishAll (tree : ResponseTree) :
    List (Task Object × Except ExecutionError (ResolvedValue Object)) → Run σ Object ResponseTree
  | [] => return tree
  | (task, forced) :: rest => do finishAll (← env.finish tree task forced) rest

/-- Does all tasks that wait. -/
def round (tree : ResponseTree) : Run σ Object ResponseTree := do
  let waiting := (← get).queue
  modify fun progress => { progress with queue := [] }
  let forced ← env.forceAll (waiting.filter fun task => tree.isLive task.path)
  env.finishAll tree forced

/-- Does rounds until no task waits, at most so many. -/
def settle : Nat → ResponseTree → Run σ Object ResponseTree
  | 0, tree => return tree
  | rounds + 1, tree => do
      if (← get).queue.isEmpty then return tree
      else settle rounds (← env.round tree)

/-- Executes the fields of the root together, and settles them. -/
def executeTogether (children : PlanChildren) (root : ResolvedValue Object) :
    Run σ Object ResponseTree := do
  let fields ← env.executeFields children root []
  env.settle (PlanNode.childrenPlaces children) ((fields.map .object).getD .null)

/-- Adds a field to the root. A failure of a field that cannot be null makes the root null. -/
def addField (tree : ResponseTree) (key : String) (nullable : Bool) (result : Option ResponseTree) :
    ResponseTree :=
  match tree, ResponseTree.filled nullable result with
  | .object fields, some value => .object (OrderedMap.insert fields key (nullable, value))
  | _, _ => .null

/-- Executes the fields of the root one after the other and settles each before the next, while the
root is not null. -/
def executeInTurn (bound : Nat) (root : ResolvedValue Object) :
    List (String × PlanNode) → ResponseTree → Run σ Object ResponseTree
  | [], tree => return tree
  | (_, node) :: rest, tree => do
      if !tree.isLive [] then return tree
      else if !node.isIncluded env.bindings then executeInTurn bound root rest tree
      else
        let result ← env.executeField node root [.field node.responseKey]
        let tree := addField tree node.responseKey (!node.returnType.isNonNull) result
        executeInTurn bound root rest (← env.settle bound tree)

/-- Executes the fields of an operation: those of a mutation in turn, others together. -/
def executeOperation (operation : PlanOperation) (root : ResolvedValue Object) :
    Run σ Object ResponseTree :=
  match operation.kind with
  | .mutation =>
      env.executeInTurn (PlanNode.childrenPlaces operation.children) root operation.children
        (.object [])
  | _ => env.executeTogether operation.children root

end Environment

end GraphQL

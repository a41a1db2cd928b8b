import GraphQL.Proofs.Execution.Correctness
import GraphQL.Proofs.Execution.Shaping
import GraphQL.Proofs.Plan.Typing

/-!
# Lookups of an execution

An execution looks up every field in the schema and the children of a node for the type of every
object. A fallback says what happens where such a lookup finds nothing. As every node of a plan fits
the schema, no fallback is ever used: an execution does the same with every fallback, whatever the
code of the host does.

A task that waits is for a node of the plan, at a type inside the type of the node. This is what the
rounds keep, so that what is forced later is completed at such a node as well.
-/

namespace GraphQL

variable {σ Object α β : Type}

/-- What happens where the schema does not have a field, and where a node has no children for the
type of an object. -/
structure Fallback (σ Object : Type) where
  field : PlanNode → ResolvedValue Object → ResponsePath →
    StateM σ (Except ExecutionError (ResolvedValue Object))
  children : String → ResolvedValue Object → ResponsePath → Run σ Object (Option ResponseTree)

namespace Environment

variable (env : Environment σ Object) (fallback : Fallback σ Object)

def resolveOr (node : PlanNode) (parent : ResolvedValue Object) (path : ResponsePath) :
    StateM σ (Except ExecutionError (ResolvedValue Object)) :=
  match env.schema.field? node.ownerType node.name with
  | some _ => env.resolve node parent path
  | none => fallback.field node parent path

mutual

def executeFieldOr (node : PlanNode) (parent : ResolvedValue Object) (path : ResponsePath) :
    Run σ Object (Option ResponseTree) := do
  match node with
  | ⟨_, _, _, _, _, _, _, _, typedChildren⟩ =>
      match ← Run.ask (env.resolveOr fallback node parent path) with
      | .ok value =>
          env.completeWith node (fun type value path => executeTypedOr typedChildren type value path)
            node.returnType value path
      | .error error => Run.fail node path error

def executeTypedOr (typedChildren : List (String × List (String × PlanNode))) (type : String)
    (value : ResolvedValue Object) (path : ResponsePath) : Run σ Object (Option ResponseTree) := do
  match typedChildren with
  | [] => fallback.children type value path
  | (name, children) :: rest =>
      if name = type then return (← executeFieldsOr children value path).map .object
      else executeTypedOr rest type value path

def executeFieldsOr (children : List (String × PlanNode)) (parent : ResolvedValue Object)
    (path : ResponsePath) : Run σ Object (Option (List (String × Bool × ResponseTree))) := do
  match children with
  | [] => return some []
  | (_, node) :: rest =>
      if node.isIncluded env.bindings then
        let nullable := !node.returnType.isNonNull
        let result ← executeFieldOr node parent (path ++ [.field node.responseKey])
        match ResponseTree.filled nullable result with
        | none => return none
        | some value =>
            return (← executeFieldsOr rest parent path).map
              ((node.responseKey, nullable, value) :: ·)
      else executeFieldsOr rest parent path

end

def completeOr (node : PlanNode) (type : TypeRef) (value : ResolvedValue Object)
    (path : ResponsePath) : Run σ Object (Option ResponseTree) :=
  env.completeWith node (env.executeTypedOr fallback node.typedChildren) type value path

def finishOr (tree : ResponseTree) (task : Task Object)
    (forced : Except ExecutionError (ResolvedValue Object)) : Run σ Object ResponseTree := do
  if tree.isLive task.path then
    let result ←
      match forced with
      | .ok value => env.completeOr fallback task.node task.type value task.path
      | .error error => Run.fail task.node task.path error
    return (tree.place task.path result).getD .null
  else return tree

def finishAllOr (tree : ResponseTree) :
    List (Task Object × Except ExecutionError (ResolvedValue Object)) → Run σ Object ResponseTree
  | [] => return tree
  | (task, forced) :: rest => do finishAllOr (← env.finishOr fallback tree task forced) rest

def roundOr (tree : ResponseTree) : Run σ Object ResponseTree := do
  let waiting := (← get).queue
  modify fun progress => { progress with queue := [] }
  let forced ← env.forceAll (waiting.filter fun task => tree.isLive task.path)
  env.finishAllOr fallback tree forced

def settleOr : Nat → ResponseTree → Run σ Object ResponseTree
  | 0, tree => return tree
  | rounds + 1, tree => do
      if (← get).queue.isEmpty then return tree
      else settleOr rounds (← env.roundOr fallback tree)

def executeTogetherOr (children : PlanChildren) (root : ResolvedValue Object) :
    Run σ Object ResponseTree := do
  let fields ← env.executeFieldsOr fallback children root []
  env.settleOr fallback (PlanNode.childrenPlaces children) ((fields.map .object).getD .null)

def executeInTurnOr (bound : Nat) (root : ResolvedValue Object) :
    List (String × PlanNode) → ResponseTree → Run σ Object ResponseTree
  | [], tree => return tree
  | (_, node) :: rest, tree => do
      if !tree.isLive [] then return tree
      else if !node.isIncluded env.bindings then executeInTurnOr bound root rest tree
      else
        let result ← env.executeFieldOr fallback node root [.field node.responseKey]
        let tree := addField tree node.responseKey (!node.returnType.isNonNull) result
        executeInTurnOr bound root rest (← env.settleOr fallback bound tree)

/-- Executes the fields of an operation, with a fallback for lookups that find nothing. -/
def executeOperationOr (operation : PlanOperation) (root : ResolvedValue Object) :
    Run σ Object ResponseTree :=
  match operation.kind with
  | .mutation =>
      env.executeInTurnOr fallback (PlanNode.childrenPlaces operation.children) root
        operation.children (.object [])
  | _ => env.executeTogetherOr fallback operation.children root

end Environment

/-- Executes a request, with a fallback for lookups that find nothing. -/
def Executor.executeOr {host : Host} (executor : Executor host)
    (fallback : Fallback (Session host) host.Object) (plan : Plan) (request : Request host) :
    StateM (Session host) Response := fun session =>
  match executor.prepare plan request.operation request.bindings with
  | .error error => (.ofError error.toFieldError, session)
  | .ok (operation, bindings) =>
      let env := executor.environment bindings request.context
      let (tree, progress) :=
        env.executeOperationOr fallback operation request.root { outside := session }
      (.ofData tree.toJson progress.errors, progress.outside)

/-! ## Nodes that a schema serves -/

/-- The lookups at a node find something, and so do those at all nodes below it. -/
inductive PlanNode.IsServed (schema : Schema) : PlanNode → Prop where
  | intro {node : PlanNode} (field : ∃ field, schema.field? node.ownerType node.name = some field)
      (children : ∀ type, schema.type? node.returnType.innermost = some type →
        type.isComposite = true → ∀ objectType, schema.Concretes type objectType →
          objectType ∈ OrderedMap.keys node.typedChildren)
      (inner : ∀ typed ∈ node.typedChildren, ∀ child ∈ typed.2, IsServed schema child.2) :
      IsServed schema node

/-- A task is for a node that the schema serves, at a type inside the type of the node. -/
structure Task.IsServed (schema : Schema) (task : Task Object) : Prop where
  node : task.node.IsServed schema
  type : task.type.innermost = task.node.returnType.innermost

/-- A node that fits the schema has children for all types of its objects. -/
theorem PlanNode.IsTyped.mem_typedChildren {schema : Schema} (wellFormed : schema.IsWellFormed)
    {lines? : Option LineIndex} {typeName key : String} {node : PlanNode}
    (typed : node.IsTyped schema lines? typeName key) {type : SchemaType}
    (found : schema.type? node.returnType.innermost = some type)
    (composite : type.isComposite = true) {objectType : String}
    (concrete : schema.Concretes type objectType) :
    objectType ∈ OrderedMap.keys node.typedChildren := by
  rw [typed.composite type found composite]
  unfold Schema.Concretes at concrete
  rw [wellFormed.name_eq found] at concrete
  split at concrete
  · rename_i isObject
    subst concrete
    exact wellFormed.possible_self found isObject
  · exact concrete

theorem Plan.IsGroup.isServed {sources : Plan.Sources} (wellFormed : sources.schema.IsWellFormed)
    {depth : Nat} {object : SchemaType} {key : String} {first : Appearance}
    {others : List Appearance} (isGroup : IsGroup sources object (first :: others)) :
    (sources.node (sources.nodesWithin depth) object key first others).IsServed sources.schema := by
  have isTyped {depth : Nat} {object : SchemaType} {key : String} {first : Appearance}
      {others : List Appearance} (isGroup : IsGroup sources object (first :: others)) :
      (sources.node (sources.nodesWithin depth) object key first others).IsTyped sources.schema
        sources.lines? object.name key :=
    isGroup.isTyped wellFormed (isGroup.defined List.mem_cons_self) _
  induction depth generalizing object key first others with
  | zero =>
      refine .intro ⟨_, (isTyped isGroup).defined.choose_spec.1⟩ ?_ ?_
      · intro type found composite objectType
        exact (isTyped isGroup).mem_typedChildren wellFormed found composite
      · rintro typed typedMem child childMem
        rcases mem_typedChildren_node typedMem with ⟨type, _, rfl⟩
        cases childMem
  | succ depth ih =>
      refine .intro ⟨_, (isTyped isGroup).defined.choose_spec.1⟩ ?_ ?_
      · intro type found composite objectType
        exact (isTyped isGroup).mem_typedChildren wellFormed found composite
      · rintro typed typedMem ⟨childKey, child⟩ childMem
        rcases mem_typedChildren_node typedMem with ⟨type, possible, rfl⟩
        rcases mem_nodesWithin childMem with ⟨inner, head, tail, same, grouped, rfl⟩
        cases same
        exact ih (.child isGroup possible grouped)

/-- The schema serves all nodes of an operation. -/
theorem Plan.isServed_of_mem_operations {schema : Schema} (wellFormed : schema.IsWellFormed)
    {document : Document} {lines? : Option LineIndex} {entry : String × PlanOperation}
    (member : entry ∈ (Plan.ofDocument schema document lines?).operations) :
    ∀ child ∈ entry.2.children, child.2.IsServed schema := by
  rintro ⟨key, node⟩ childMem
  rcases (HasNode.operation member childMem).exists_group with
    ⟨depth, object, first, others, isGroup, _, rfl⟩
  exact isGroup.isServed wellFormed

/-! ## Completing with two ways to complete fields -/

namespace Run

/-- What follows may depend on what a run has come to. -/
theorem bind_congr {run : Run σ Object α} {next other : α → Run σ Object β}
    (same : ∀ before, next (run before).1 (run before).2 = other (run before).1 (run before).2) :
    (run >>= next) = run >>= other :=
  funext same

end Run

namespace Environment

variable {env : Environment σ Object} {fallback : Fallback σ Object} {node : PlanNode}

/-- Two ways to complete the fields of objects do the same for the types that objects can have. -/
def AgreeOn (env : Environment σ Object) (type : TypeRef)
    (fields others : String → ResolvedValue Object → ResponsePath →
      Run σ Object (Option ResponseTree)) : Prop :=
  ∀ found, env.schema.type? type.innermost = some found → found.isComposite = true →
    ∀ objectType, env.schema.Concretes found objectType → fields objectType = others objectType

theorem completeNamed_congr {fields others : String → ResolvedValue Object → ResponsePath →
      Run σ Object (Option ResponseTree)} {name : String}
    (agree : env.AgreeOn (.named name) fields others) (type : TypeRef)
    (value : ResolvedValue Object) (path : ResponsePath) :
    env.completeNamed node fields type name value path =
      env.completeNamed node others type name value path := by
  simp only [completeNamed]
  cases isFound : env.schema.type? name with
  | none => rfl
  | some found =>
      simp only
      split
      · rfl
      · split
        · rename_i isComposite
          apply Run.bind_congr
          intro before
          rcases objectType?_concrete env found value before with
            ⟨objectType?, outside, asked, _, concrete⟩
          rw [asked]
          cases objectType? with
          | none => rfl
          | some objectType =>
              simp only [agree found isFound isComposite objectType (concrete objectType rfl)]
        · rfl

theorem completeWith_congr {fields others : String → ResolvedValue Object → ResponsePath →
      Run σ Object (Option ResponseTree)} :
    ∀ type : TypeRef, env.AgreeOn type fields others →
      env.completeWith node fields type = env.completeWith node others type
  | .named name, agree => by
      funext value path
      simp only [completeWith, completeNamed_congr agree]
  | .nonNull (.named name), agree => by
      have named : env.AgreeOn (.named name) fields others := agree
      funext value path
      simp only [completeWith, completeNamed_congr named]
  | .nonNull (.nonNull inner), agree => by
      funext value path
      simp only [completeWith, completeWith_congr inner agree]
  | .list item, agree => by
      funext value path
      simp only [completeWith, completeWith_congr item agree]
  | .nonNull (.list item), agree => by
      funext value path
      simp only [completeWith, completeWith_congr item agree]

/-! ## Fields -/

theorem resolveOr_eq (served : node.IsServed env.schema) :
    env.resolveOr fallback node = env.resolve node := by
  rcases served with ⟨⟨field, found⟩, _, _⟩
  funext parent path
  simp only [resolveOr, found]

mutual

theorem executeFieldOr_eq :
    ∀ {node : PlanNode}, node.IsServed env.schema →
      env.executeFieldOr fallback node = env.executeField node
  | ⟨responseKey, name, ownerType, returnType, arguments, spans, locations, conditions,
      typedChildren⟩, served => by
      have resolved : env.resolveOr fallback _ = env.resolve _ := resolveOr_eq served
      rcases served with ⟨_, children, inner⟩
      have agree : env.AgreeOn returnType (env.executeTypedOr fallback typedChildren)
          (env.executeTyped typedChildren) := by
        intro found isFound isComposite objectType concrete
        exact executeTypedOr_eq inner (children found isFound isComposite objectType concrete)
      funext parent path
      simp only [executeFieldOr, executeField]
      rw [resolved]
      refine Run.bind_congr fun before => ?_
      cases (Run.ask (env.resolve _ parent path) before).1 with
      | ok value =>
          exact congrFun (congrFun (congrFun (completeWith_congr returnType agree) value) path) _
      | error error => rfl

theorem executeTypedOr_eq {type : String} :
    ∀ {typedChildren : List (String × List (String × PlanNode))},
      (∀ typed ∈ typedChildren, ∀ child ∈ typed.2, child.2.IsServed env.schema) →
      type ∈ OrderedMap.keys typedChildren →
      env.executeTypedOr fallback typedChildren type = env.executeTyped typedChildren type
  | [], _, known => by cases known
  | (name, children) :: rest, served, known => by
      funext value path
      simp only [executeTypedOr, executeTyped]
      split
      · rw [executeFieldsOr_eq (served _ List.mem_cons_self)]
      · rename_i different
        have later : type ∈ OrderedMap.keys rest :=
          (List.mem_cons.mp known).resolve_left fun same => different same.symm
        rw [executeTypedOr_eq (fun typed member => served typed (List.mem_cons_of_mem _ member)) later]

theorem executeFieldsOr_eq :
    ∀ {children : List (String × PlanNode)}, (∀ child ∈ children, child.2.IsServed env.schema) →
      env.executeFieldsOr fallback children = env.executeFields children
  | [], _ => by
      funext parent path
      simp only [executeFieldsOr, executeFields]
  | (key, node) :: rest, served => by
      have first := executeFieldOr_eq (served (key, node) List.mem_cons_self)
      have others := executeFieldsOr_eq fun child member =>
        served child (List.mem_cons_of_mem _ member)
      funext parent path
      simp only [executeFieldsOr, executeFields]
      split
      · rw [first]
        refine Run.bind_congr fun before => ?_
        cases ResponseTree.filled (!node.returnType.isNonNull) (env.executeField node parent _ before).1
        with
        | none => rfl
        | some value => simp only [others]
      · exact congrFun (congrFun others parent) path

end

theorem completeOr_eq (served : node.IsServed env.schema) {type : TypeRef}
    (inside : type.innermost = node.returnType.innermost) :
    env.completeOr fallback node type = env.complete node type := by
  rcases served with ⟨_, children, inner⟩
  apply completeWith_congr
  intro found isFound isComposite objectType concrete
  rw [inside] at isFound
  exact executeTypedOr_eq inner (children found isFound isComposite objectType concrete)

end Environment

/-! ## Tasks -/

/-- A run adds only tasks of a kind to the queue. -/
def Run.Posts (good : Task Object → Prop) (run : Run σ Object α) : Prop :=
  ∀ before, ∀ task ∈ (run before).2.queue, task ∈ before.queue ∨ good task

namespace Run.Posts

variable {good : Task Object → Prop}

theorem pure (value : α) : Posts good (Pure.pure value : Run σ Object α) :=
  fun _ _ member => .inl member

theorem ask (question : StateM σ α) : Posts good (Run.ask question : Run σ Object α) :=
  fun _ _ member => .inl member

theorem fail (node : PlanNode) (path : ResponsePath) (error : ExecutionError) :
    Posts good (Run.fail node path error : Run σ Object (Option β)) :=
  fun _ _ member => .inl member

theorem postpone {task : Task Object} (isGood : good task) :
    Posts good (Run.postpone task : Run σ Object (Option ResponseTree)) := by
  intro before other member
  rcases List.mem_append.mp member with member | member
  · exact .inl member
  · rw [List.mem_singleton] at member
    exact .inr (member ▸ isGood)

theorem bind {run : Run σ Object α} {next : α → Run σ Object β} (posts : Posts good run)
    (follows : ∀ value, Posts good (next value)) : Posts good (run >>= next) := by
  intro before task member
  rcases follows (run before).1 (run before).2 task member with member | isGood
  · exact posts before task member
  · exact .inr isGood

theorem ite {condition : Prop} [Decidable condition] {run other : Run σ Object α}
    (posts : Posts good run) (otherPosts : Posts good other) :
    Posts good (if condition then run else other) := by
  split
  · exact posts
  · exact otherPosts

/-- A run that adds good tasks to good tasks. -/
theorem all {run : Run σ Object α} (posts : Posts good run) {before : Progress σ Object}
    (allGood : ∀ task ∈ before.queue, good task) : ∀ task ∈ (run before).2.queue, good task := by
  intro task member
  rcases posts before task member with member | isGood
  · exact allGood task member
  · exact isGood

end Run.Posts

namespace Environment

variable {env : Environment σ Object} {fallback : Fallback σ Object} {good : Task Object → Prop}
  {node : PlanNode}

theorem objectType?_posts (type : SchemaType) (value : ResolvedValue Object) :
    Run.Posts good (env.objectType? type value) := by
  intro before task member
  rcases objectType?_concrete env type value before with ⟨_, _, asked, _, _⟩
  rw [asked] at member
  exact .inl member

theorem completeItems_posts
    {complete : ResolvedValue Object → ResponsePath → Run σ Object (Option ResponseTree)}
    (posts : ∀ value path, Run.Posts good (complete value path)) (nullable : Bool)
    (path : ResponsePath) (position : Nat) (items : List (ResolvedValue Object)) :
    Run.Posts good (completeItems complete nullable path position items) := by
  induction items generalizing position with
  | nil => exact .pure _
  | cons value rest ih =>
      refine .bind (posts _ _) fun made => ?_
      split
      · exact .pure _
      · exact .bind (ih _) fun others => .pure _

variable {fields : String → ResolvedValue Object → ResponsePath → Run σ Object (Option ResponseTree)}

theorem completeNamed_posts (inside : ∀ type value path, Run.Posts good (fields type value path))
    (type : TypeRef) (name : String) (value : ResolvedValue Object) (path : ResponsePath) :
    Run.Posts good (env.completeNamed node fields type name value path) := by
  simp only [completeNamed]
  split
  · exact .fail _ _ _
  · refine .ite ?_ (.ite (.bind (objectType?_posts _ _) fun objectType? => ?_) (.fail _ _ _))
    · split
      · exact .pure _
      · exact .fail _ _ _
    · split
      · exact inside _ _ _
      · exact .fail _ _ _

/-- Only values at types inside the declared type wait. -/
theorem completeWith_posts (inside : ∀ type value path, Run.Posts good (fields type value path)) :
    ∀ type : TypeRef, (∀ inner value path, TypeRef.innermost inner = type.innermost →
      good { path, node, type := inner, value }) → ∀ value path,
        Run.Posts good (env.completeWith node fields type value path)
  | .named name, isGood, value, path => by
      simp only [completeWith]
      exact .ite (.postpone (isGood _ _ _ rfl))
        (.ite (.ite (.fail _ _ _) (.pure _)) (completeNamed_posts inside _ _ _ _))
  | .nonNull (.named name), isGood, value, path => by
      simp only [completeWith]
      exact .ite (.postpone (isGood _ _ _ rfl))
        (.ite (.ite (.fail _ _ _) (.pure _)) (completeNamed_posts inside _ _ _ _))
  | .nonNull (.nonNull inner), isGood, value, path => by
      simp only [completeWith]
      exact .ite (.postpone (isGood _ _ _ rfl))
        (.ite (.ite (.fail _ _ _) (.pure _)) (completeWith_posts inside inner isGood _ _))
  | .list item, isGood, value, path => by
      simp only [completeWith]
      refine .ite (.postpone (isGood _ _ _ rfl)) (.ite (.ite (.fail _ _ _) (.pure _)) ?_)
      split
      · exact .fail _ _ _
      · exact .bind (completeItems_posts (completeWith_posts inside item isGood) _ _ _ _)
          fun made => .pure _
  | .nonNull (.list item), isGood, value, path => by
      simp only [completeWith]
      refine .ite (.postpone (isGood _ _ _ rfl)) (.ite (.ite (.fail _ _ _) (.pure _)) ?_)
      split
      · exact .fail _ _ _
      · exact .bind (completeItems_posts (completeWith_posts inside item isGood) _ _ _ _)
          fun made => .pure _

mutual

theorem executeField_posts :
    ∀ {node : PlanNode}, node.IsServed env.schema → ∀ parent path,
      Run.Posts (Task.IsServed env.schema) (env.executeField node parent path)
  | ⟨responseKey, name, ownerType, returnType, arguments, spans, locations, conditions,
      typedChildren⟩, served, parent, path => by
      have inner := by
        rcases served with ⟨_, _, inner⟩
        exact inner
      simp only [executeField]
      refine .bind (.ask _) fun answer => ?_
      split
      · apply completeWith_posts
        · exact fun type value path => executeTyped_posts inner type value path
        · exact fun inner value path same => ⟨served, same⟩
      · exact .fail _ _ _

theorem executeTyped_posts :
    ∀ {typedChildren : List (String × List (String × PlanNode))},
      (∀ typed ∈ typedChildren, ∀ child ∈ typed.2, child.2.IsServed env.schema) →
      ∀ type value path,
        Run.Posts (Task.IsServed env.schema) (env.executeTyped typedChildren type value path)
  | [], _, type, value, path => by
      simp only [executeTyped]
      exact .pure _
  | (name, children) :: rest, served, type, value, path => by
      simp only [executeTyped]
      refine .ite ?_ ?_
      · exact .bind (executeFields_posts (served _ List.mem_cons_self) _ _) fun made => .pure _
      · exact executeTyped_posts (fun typed member => served typed (List.mem_cons_of_mem _ member))
          _ _ _

theorem executeFields_posts :
    ∀ {children : List (String × PlanNode)}, (∀ child ∈ children, child.2.IsServed env.schema) →
      ∀ parent path,
        Run.Posts (Task.IsServed env.schema) (env.executeFields children parent path)
  | [], _, parent, path => by
      simp only [executeFields]
      exact .pure _
  | (key, node) :: rest, served, parent, path => by
      have others := executeFields_posts (fun child member =>
        served child (List.mem_cons_of_mem _ member)) parent path
      simp only [executeFields]
      refine .ite (.bind (executeField_posts (served _ List.mem_cons_self) _ _) fun made => ?_) others
      split
      · exact .pure _
      · exact .bind others fun made => .pure _

end

/-! ## Rounds -/

theorem finish_posts {task : Task Object} (served : task.IsServed env.schema) (tree : ResponseTree)
    (forced : Except ExecutionError (ResolvedValue Object)) :
    Run.Posts (Task.IsServed env.schema) (env.finish tree task forced) := by
  have inner := by
    rcases served.node with ⟨_, _, inner⟩
    exact inner
  simp only [finish]
  refine .ite ?_ (.pure _)
  split
  · refine .bind ?_ fun made => .pure _
    apply completeWith_posts
    · exact fun type value path => executeTyped_posts inner type value path
    · exact fun type value path same => ⟨served.node, same.trans served.type⟩
  · exact .bind (.fail _ _ _) fun made => .pure _

theorem finishOr_eq {task : Task Object} (served : task.IsServed env.schema) (tree : ResponseTree)
    (forced : Except ExecutionError (ResolvedValue Object)) :
    env.finishOr fallback tree task forced = env.finish tree task forced := by
  cases forced with
  | ok value => simp only [finishOr, finish, completeOr_eq served.node served.type]
  | error error => simp only [finishOr, finish]

section

variable {forced : List (Task Object × Except ExecutionError (ResolvedValue Object))}

theorem finishAll_posts (served : ∀ done ∈ forced, done.1.IsServed env.schema)
    (tree : ResponseTree) :
    Run.Posts (Task.IsServed env.schema) (env.finishAll tree forced) := by
  induction forced generalizing tree with
  | nil => exact .pure _
  | cons done rest ih =>
      exact .bind (finish_posts (served done List.mem_cons_self) _ _) fun tree =>
        ih (fun other member => served other (List.mem_cons_of_mem _ member)) tree

theorem finishAllOr_eq (served : ∀ done ∈ forced, done.1.IsServed env.schema)
    (tree : ResponseTree) : env.finishAllOr fallback tree forced = env.finishAll tree forced := by
  induction forced generalizing tree with
  | nil => rfl
  | cons done rest ih =>
      have others := funext (ih fun other member => served other (List.mem_cons_of_mem _ member))
      simp only [finishAllOr, finishAll, finishOr_eq (served done List.mem_cons_self), others]

end

/-- Forcing some tasks answers them, and leaves the queue as it is. -/
theorem forceAll_keeps (tasks : List (Task Object)) (before : Progress σ Object) :
    (∀ done ∈ (env.forceAll tasks before).1, done.1 ∈ tasks) ∧
      (env.forceAll tasks before).2.queue = before.queue := by
  induction tasks generalizing before with
  | nil => exact ⟨fun done member => (by cases member), rfl⟩
  | cons task rest ih =>
      rcases ih (Run.ask (env.force task.value) before).2 with ⟨answered, queue⟩
      constructor
      · intro done member
        rcases List.mem_cons.mp member with rfl | member
        · exact List.mem_cons_self
        · exact List.mem_cons_of_mem _ (answered done member)
      · exact queue

section

variable {before : Progress σ Object}

/-- A round answers tasks that waited. -/
theorem isServed_of_forceAll (served : ∀ task ∈ before.queue, task.IsServed env.schema)
    (tree : ResponseTree) :
    ∀ done ∈ (env.forceAll (before.queue.filter fun task => tree.isLive task.path)
      { before with queue := [] }).1, done.1.IsServed env.schema := by
  intro done member
  exact served _ (List.mem_filter.mp ((forceAll_keeps _ _).1 done member)).1

theorem isServed_round (served : ∀ task ∈ before.queue, task.IsServed env.schema)
    (tree : ResponseTree) : ∀ task ∈ (env.round tree before).2.queue, task.IsServed env.schema := by
  apply (finishAll_posts (isServed_of_forceAll served tree) tree).all
  intro task member
  rw [(forceAll_keeps _ _).2] at member
  cases member

theorem roundOr_eq (served : ∀ task ∈ before.queue, task.IsServed env.schema)
    (tree : ResponseTree) : env.roundOr fallback tree before = env.round tree before :=
  congrFun (finishAllOr_eq (isServed_of_forceAll served tree) tree) _

theorem settleOr_eq (served : ∀ task ∈ before.queue, task.IsServed env.schema) (rounds : Nat)
    (tree : ResponseTree) :
    env.settleOr fallback rounds tree before = env.settle rounds tree before ∧
      ∀ task ∈ (env.settle rounds tree before).2.queue, task.IsServed env.schema := by
  induction rounds generalizing before tree with
  | zero => exact ⟨rfl, served⟩
  | succ rounds ih =>
      have step : env.settleOr fallback (rounds + 1) tree before =
          if before.queue.isEmpty then (tree, before)
          else env.settleOr fallback rounds (env.roundOr fallback tree before).1
            (env.roundOr fallback tree before).2 := by
        change (if before.queue.isEmpty = true then Pure.pure tree
          else env.roundOr fallback tree >>= env.settleOr fallback rounds :
            Run σ Object ResponseTree) before = _
        split <;> rfl
      rw [step, env.settle_succ, roundOr_eq served]
      split
      · exact ⟨rfl, served⟩
      · exact ih (isServed_round served tree) _

end

/-! ## Operations -/

theorem executeTogetherOr_eq {children : PlanChildren}
    (served : ∀ child ∈ children, child.2.IsServed env.schema) (root : ResolvedValue Object)
    {before : Progress σ Object} (queue : before.queue = []) :
    env.executeTogetherOr fallback children root before =
      env.executeTogether children root before := by
  have posted : ∀ task ∈ (env.executeFields children root [] before).2.queue,
      task.IsServed env.schema := (executeFields_posts served root []).all (by simp [queue])
  simp only [executeTogetherOr, executeTogether, executeFieldsOr_eq served]
  exact (settleOr_eq posted _ _).1

theorem executeInTurnOr_eq {bound : Nat} {root : ResolvedValue Object}
    {children : List (String × PlanNode)}
    (served : ∀ child ∈ children, child.2.IsServed env.schema) {tree : ResponseTree}
    {before : Progress σ Object} (waiting : ∀ task ∈ before.queue, task.IsServed env.schema) :
    env.executeInTurnOr fallback bound root children tree before =
      env.executeInTurn bound root children tree before := by
  induction children generalizing tree before with
  | nil => rfl
  | cons entry rest ih =>
      rcases entry with ⟨key, node⟩
      have here := served (key, node) List.mem_cons_self
      have others := fun child member => served child (List.mem_cons_of_mem (key, node) member)
      simp only [executeInTurnOr, executeInTurn]
      split
      · rfl
      · split
        · exact ih others waiting
        · simp only [executeFieldOr_eq here]
          let made := env.executeField node root [.field node.responseKey] before
          have posted : ∀ task ∈ made.2.queue, task.IsServed env.schema :=
            (executeField_posts here root [.field node.responseKey]).all waiting
          let added := addField tree node.responseKey (!node.returnType.isNonNull) made.1
          have settled : env.settleOr fallback bound added made.2 = _ ∧ _ :=
            settleOr_eq posted bound added
          change env.executeInTurnOr fallback bound root rest
              (env.settleOr fallback bound added made.2).1
              (env.settleOr fallback bound added made.2).2 =
            env.executeInTurn bound root rest (env.settle bound added made.2).1
              (env.settle bound added made.2).2
          rw [settled.1]
          exact ih others settled.2

theorem executeOperationOr_eq {operation : PlanOperation}
    (served : ∀ child ∈ operation.children, child.2.IsServed env.schema)
    (root : ResolvedValue Object) {before : Progress σ Object} (queue : before.queue = []) :
    env.executeOperationOr fallback operation root before =
      env.executeOperation operation root before := by
  simp only [executeOperationOr, executeOperation]
  cases operation.kind with
  | mutation => exact executeInTurnOr_eq served (by simp [queue])
  | query => exact executeTogetherOr_eq served root queue
  | subscription => exact executeTogetherOr_eq served root queue

end Environment

/-! ## Requests -/

theorem Executor.executeOr_eq {host : Host} {executor : Executor host} {plan : Plan}
    (served : ∀ entry ∈ plan.operations,
      ∀ child ∈ entry.2.children, child.2.IsServed executor.schema)
    (fallback : Fallback (Session host) host.Object) (request : Request host) :
    executor.executeOr fallback plan request = executor.execute plan request := by
  funext session
  simp only [executeOr, execute]
  cases prepared : executor.prepare plan request.operation request.bindings with
  | error error => rfl
  | ok chosen =>
      rcases chosen with ⟨operation, bindings⟩
      rcases exists_mem_of_prepare prepared with ⟨key, member⟩
      let env := executor.environment bindings request.context
      have inSchema : ∀ child ∈ operation.children, child.2.IsServed env.schema :=
        served _ member
      have same : env.executeOperationOr fallback operation request.root { outside := session } =
          env.executeOperation operation request.root { outside := session } :=
        Environment.executeOperationOr_eq inSchema request.root rfl
      exact congrArg (fun run => (Response.ofData run.1.toJson run.2.errors, run.2.outside)) same

/-- All nodes of a plan fit the schema where they stand, and an execution of the plan never looks up
a field or the children for an object in vain: what would happen then makes no difference. -/
theorem Plan.fits_schema {source : String} {schema : Schema}
    (accepted : Schema.ofSource source = .ok schema) (document : Document)
    (lines? : Option LineIndex) :
    (∀ typeName key node, HasNode (ofDocument schema document lines?) typeName key node →
      node.IsTyped schema lines? typeName key) ∧
    ∀ (host : Host) (executor : Executor host), executor.schema = schema →
      ∀ (fallback : Fallback (Session host) host.Object) (request : Request host),
        executor.executeOr fallback (ofDocument schema document lines?) request =
          executor.execute (ofDocument schema document lines?) request := by
  have wellFormed := Schema.ofSource_isWellFormed accepted
  constructor
  · exact fun typeName key node hasNode => hasNode.isTyped wellFormed
  · rintro host executor rfl fallback request
    exact executor.executeOr_eq (fun entry member => isServed_of_mem_operations wellFormed member)
      fallback request

namespace LazyFields

def pets : Schema :=
  (Schema.ofSource
    ("interface Pet { name: String } type Dog implements Pet { name: String } "
      ++ "type Cat implements Pet { name: String } type Query { pet: Pet }")).toOption.getD {}

/-- Nothing is selected on dogs, and an alias on cats. -/
def petName : Document :=
  ((Document.parse "{ pet { ... on Cat { called: name } } }").toOption.map
    (·.document)).getD ⟨[], ⟨0, 0⟩⟩

theorem selects_on_pets :
    (Schema.ofSource
        ("interface Pet { name: String } type Dog implements Pet { name: String } "
          ++ "type Cat implements Pet { name: String } type Query { pet: Pet }")).toBool = true ∧
      (Plan.ofDocument pets petName none).operations.any (fun (_, operation) =>
        operation.rootType == "Query" && operation.children.any fun (key, node) =>
          key == "pet" && (OrderedMap.keys node.typedChildren == ["Dog", "Cat"])) = true := by
  decide +kernel

theorem serves_pets :
    ∃ node, Plan.HasNode (Plan.ofDocument pets petName none) "Query" "pet" node ∧
      OrderedMap.keys node.typedChildren = ["Dog", "Cat"] ∧
      node.IsTyped pets none "Query" "pet" ∧
      ∀ fallback, (executor pets).executeOr fallback (Plan.ofDocument pets petName none) request =
        (executor pets).execute (Plan.ofDocument pets petName none) request := by
  rcases selects_on_pets with ⟨accepted, shows⟩
  rcases Plan.fits_schema (eq_ok_of_toBool accepted {}) petName none with ⟨fits, agrees⟩
  rcases List.any_eq_true.mp shows with ⟨⟨name, operation⟩, member, isQuery⟩
  simp only [Bool.and_eq_true, beq_iff_eq, List.any_eq_true] at isQuery
  rcases isQuery with ⟨root, ⟨key, node⟩, child, rfl, keys⟩
  have hasNode : Plan.HasNode (Plan.ofDocument pets petName none) "Query" "pet" node :=
    root ▸ .operation member child
  exact ⟨node, hasNode, keys, fits _ _ _ hasNode,
    fun fallback => agrees host (executor pets) rfl fallback request⟩

end LazyFields

end GraphQL

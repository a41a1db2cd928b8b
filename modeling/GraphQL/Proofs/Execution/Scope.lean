import GraphQL.Proofs.Execution.Conformance
import GraphQL.Proofs.Execution.Verdicts
import GraphQL.Proofs.Plan.Groups
import GraphQL.Proofs.Plan.Nesting

/-!
# How far an execution goes

Whatever the code of a host does, an execution stays at paths that lead through included nodes of the
plan: it resolves fields, fails and waits there only. Such a path goes through no more fields than
the longest chain of included nodes has nodes. So the depth of an operation, which looks at all
object types at once, bounds what is resolved, and an execution that goes too deep is refused before
anything is asked of the host.
-/

namespace GraphQL

/-! ## Paths through a plan -/

def PathSegment.isField : PathSegment → Bool
  | field _ => true
  | index _ => false

/-- How many fields a path goes through. -/
def ResponsePath.fieldCount (path : ResponsePath) : Nat :=
  path.countP PathSegment.isField

/-- A path leads through included nodes and lists to a node, or into a list there. -/
inductive PlanChildren.LeadsTo (top : PlanChildren) (bindings : Variables) :
    ResponsePath → PlanNode → Prop where
  | root {node : PlanNode} (member : node ∈ List.map Prod.snd top)
      (included : node.isIncluded bindings = true) :
      LeadsTo top bindings [.field node.responseKey] node
  | item {path : ResponsePath} {node : PlanNode} (outer : LeadsTo top bindings path node)
      (position : Nat) : LeadsTo top bindings (path ++ [.index position]) node
  | field {path : ResponsePath} {outer node : PlanNode} (above : LeadsTo top bindings path outer)
      (member : node ∈ outer.inner.map Prod.snd) (included : node.isIncluded bindings = true) :
      LeadsTo top bindings (path ++ [.field node.responseKey]) node

/-- What is below a path is not deeper than what the fields before it leave. -/
theorem PlanChildren.LeadsTo.fieldCount_le {top : PlanChildren} {bindings : Variables}
    {path : ResponsePath} {node : PlanNode} (leads : top.LeadsTo bindings path node) :
    ResponsePath.fieldCount path + PlanNode.childrenDepth bindings node.inner ≤
      PlanNode.childrenDepth bindings top := by
  have measures := PlanNode.measures_childrenDepth bindings
  induction leads with
  | root member included => exact measures.le_of_mem member included
  | item outer position ih =>
      simpa [ResponsePath.fieldCount, PathSegment.isField] using ih
  | field above member included ih =>
      have below := measures.le_of_mem member included
      simp only [ResponsePath.fieldCount, PathSegment.isField, List.countP_append,
        List.countP_singleton, if_true] at ih ⊢
      omega

/-- The fields of an object type that a node can have are below it. -/
theorem PlanChildren.LeadsTo.typed {top : PlanChildren} {bindings : Variables}
    {path : ResponsePath} {outer : PlanNode} (leads : top.LeadsTo bindings path outer)
    {typed : String × List (String × PlanNode)} (typedMem : typed ∈ outer.typedChildren)
    {key : String} {node : PlanNode} (member : (key, node) ∈ typed.2)
    (included : node.isIncluded bindings = true) :
    top.LeadsTo bindings (path ++ [.field node.responseKey]) node :=
  .field leads
    (List.mem_map_of_mem (f := Prod.snd) (List.mem_flatMap.mpr ⟨typed, typedMem, member⟩)) included

/-! ## Verdicts of recorded executions -/

variable {σ Object α β : Type}

theorem Record.lift_bind (first : StateM σ α) (rest : α → StateM σ β) :
    (Record.lift (first >>= rest) : StateM (Record σ Object) β) =
      Record.lift first >>= fun value => Record.lift (rest value) :=
  rfl

namespace Environment

variable {env : Environment σ Object} {node : PlanNode}

theorem recorded_typeFor? (type : SchemaType) (value : ResolvedValue Object) :
    env.recorded.typeFor? type value = Record.lift (env.typeFor? type value) := by
  unfold typeFor?
  cases type.isObject with
  | true => rfl
  | false =>
      simp only [Bool.false_eq_true, if_false, Record.lift_bind]
      refine congrArg (Record.lift (env.typeOf type.name value) >>= ·) (funext fun name? => ?_)
      cases name? with
      | some name => rfl
      | none =>
          have same : env.recorded.schema = env.schema := rfl
          simp only [same]
          rcases env.schema.possibleTypes type.name with _ | ⟨only, _ | ⟨other, rest⟩⟩ <;> rfl

theorem recorded_namedVerdict (type : TypeRef) (name : String) (value : ResolvedValue Object) :
    env.recorded.namedVerdict node type name value =
      Record.lift (env.namedVerdict node type name value) := by
  unfold namedVerdict
  rw [show env.recorded.schema = env.schema from rfl]
  cases env.schema.type? name with
  | none => rfl
  | some found =>
      simp only
      by_cases isLeaf : found.isLeaf = true
      · rw [if_pos isLeaf, if_pos isLeaf]
        cases value <;> rfl
      · rw [if_neg isLeaf, if_neg isLeaf]
        by_cases isComposite : found.isComposite = true
        · rw [if_pos isComposite, if_pos isComposite, recorded_typeFor?, Record.lift_bind]
          refine congrArg (Record.lift (env.typeFor? found value) >>= ·) (funext fun type? => ?_)
          cases type? <;> rfl
        · rw [if_neg isComposite, if_neg isComposite]
          rfl

/-- The verdict on a value is asked for without a trace. -/
theorem recorded_verdict (type : TypeRef) (value : ResolvedValue Object) :
    env.recorded.verdict node type value = Record.lift (env.verdict node type value) := by
  induction type using verdict.induct value with
  | case1 type isNull =>
      unfold verdict
      rw [if_pos isNull, if_pos isNull]
      rfl
  | case2 isNull inner ih =>
      unfold verdict
      rw [if_neg isNull, if_neg isNull]
      exact ih
  | case3 isNull name | case4 isNull name =>
      unfold verdict
      rw [if_neg isNull, if_neg isNull]
      exact recorded_namedVerdict _ _ _
  | case5 isNull item isItems | case6 isNull item items isItems
  | case7 isNull item isItems | case8 isNull item items isItems =>
      unfold verdict
      rw [if_neg isNull, if_neg isNull]
      simp only [isItems]
      rfl

end Environment

/-! ## Conditions that runs keep -/

/-- A condition that a run keeps. -/
def Run.Keeps (holds : Progress σ Object → Prop) (run : Run σ Object α) : Prop :=
  ∀ progress, holds progress → holds (run progress).2

namespace Run.Keeps

variable {holds : Progress σ Object → Prop}

theorem pure (value : α) : Run.Keeps holds (Pure.pure value) :=
  fun _ now => now

/-- What follows only needs to keep the condition for answers that there can be. -/
theorem bind {run : Run σ Object α} {after : α → Run σ Object β} (first : run.Keeps holds)
    (rest : ∀ progress, (after (run progress).1).Keeps holds) : Run.Keeps holds (run >>= after) :=
  fun progress now => rest progress _ (first progress now)

theorem map {run : Run σ Object α} (first : run.Keeps holds) (change : α → β) :
    Run.Keeps holds (do return change (← run)) :=
  first.bind fun _ => .pure _

end Run.Keeps

/-- Everything that was resolved or failed so far, and everything that waits, is at paths that lead
through included nodes. -/
structure Progress.IsInside (top : PlanChildren) (bindings : Variables)
    (progress : Progress (Record σ Object) Object) : Prop where
  calls : ∀ call, .resolved call ∈ progress.outside.trace → top.LeadsTo bindings call.path call.node
  errors : ∀ error ∈ progress.errors,
    ∃ path node, error.path = some path ∧ top.LeadsTo bindings path node
  tasks : ∀ task ∈ progress.queue, top.LeadsTo bindings task.path task.node

namespace Run.Keeps

variable {env : Environment σ Object} {top : PlanChildren} {node : PlanNode} {path : ResponsePath}

/-- A run stays inside of what leads from some children, with the variables of an environment. -/
abbrev Inside (env : Environment σ Object) (top : PlanChildren)
    (run : Run (Record σ Object) Object α) : Prop :=
  run.Keeps (Progress.IsInside top env.bindings)

/-! ### Single steps -/

/-- Questions that resolve no field are of no account. -/
theorem lift (question : StateM σ α) : Inside env top (Run.ask (Record.lift question)) :=
  fun _ now => ⟨now.calls, now.errors, now.tasks⟩

theorem log {occurrence : Occurrence Object} (other : occurrence.call? = none) :
    Inside env top (Run.log occurrence) := by
  intro progress now
  refine ⟨?_, now.errors, now.tasks⟩
  intro call member
  rcases List.mem_append.mp member with member | member
  · exact now.calls call member
  · cases List.mem_singleton.mp member
    cases other

theorem fail (leads : top.LeadsTo env.bindings path node) (error : ExecutionError) :
    Inside env top (Run.fail node path error : Run _ _ (Option α)) := by
  intro progress now
  refine ⟨now.calls, ?_, now.tasks⟩
  intro recorded member
  rcases List.mem_append.mp member with member | member
  · exact now.errors recorded member
  · cases List.mem_singleton.mp member
    exact ⟨path, node, error.recorded_path node path, leads⟩

theorem postpone {task : Task Object} (leads : top.LeadsTo env.bindings task.path task.node) :
    Inside env top (Run.postpone task) := by
  intro progress now
  refine ⟨now.calls, now.errors, ?_⟩
  intro other member
  rcases List.mem_append.mp member with member | member
  · exact now.tasks other member
  · cases List.mem_singleton.mp member
    exact leads

/-- Resolving a field at a path that leads to it. -/
theorem resolve (leads : top.LeadsTo env.bindings path node) (parent : ResolvedValue Object) :
    Inside env top (Run.ask (env.recorded.resolve node parent path)) := by
  intro progress now
  refine ⟨?_, now.errors, now.tasks⟩
  intro call member
  rcases List.mem_append.mp member with member | member
  · exact now.calls call member
  · cases List.mem_singleton.mp member
    exact leads

/-! ### Completing values -/

/-- The fields of the objects that a node can have stay inside. -/
def FieldsInside (env : Environment σ Object) (top : PlanChildren) (node : PlanNode)
    (fields : String → ResolvedValue Object → ResponsePath →
      Run (Record σ Object) Object (Option ResponseTree)) : Prop :=
  ∀ type value path, top.LeadsTo env.bindings path node → Inside env top (fields type value path)

theorem completeItems
    {complete : ResolvedValue Object → ResponsePath →
      Run (Record σ Object) Object (Option ResponseTree)}
    (each : ∀ value position, Inside env top (complete value (path ++ [.index position])))
    (nullable : Bool) (start : Nat) (values : List (ResolvedValue Object)) :
    Inside env top (Environment.completeItems complete nullable path start values) := by
  induction values generalizing start with
  | nil => exact .pure _
  | cons value rest ih =>
      refine (each value start).bind fun progress => ?_
      cases ResponseTree.filled nullable _ with
      | none => exact .pure _
      | some tree => exact (ih _).map _

theorem completeWith
    {fields : String → ResolvedValue Object → ResponsePath →
      Run (Record σ Object) Object (Option ResponseTree)}
    (inside : FieldsInside env top node fields) (type : TypeRef) (value : ResolvedValue Object)
    (leads : top.LeadsTo env.bindings path node) :
    Inside env top (env.recorded.completeWith node fields type value path) := by
  induction lists : type.listDepth using Nat.strong_induction_on generalizing type value path with
  | _ lists below =>
      cases isLazy : env.recorded.isLazy value with
      | true =>
          rw [Environment.completeWith_of_lazy isLazy]
          exact .postpone leads
      | false =>
          rw [Environment.completeWith_of_eager isLazy, Environment.recorded_verdict]
          refine (lift _).bind fun progress => ?_
          cases found : (Run.ask (Record.lift (env.verdict node type value)) progress).1 with
          | failure error => exact .fail leads error
          | null => exact .pure _
          | leaf value => exact .pure _
          | object type => exact inside _ _ _ leads
          | list item items =>
              have fewer : item.listDepth < type.listDepth := by
                have isList : (env.verdict node type value progress.outside.outside).1 =
                    .list item items := found
                rw [← Environment.listDepth_of_verdict isList]
                exact Nat.lt_succ_self _
              refine (completeItems (fun value position => ?_) _ _ _).map _
              exact below _ (lists ▸ fewer) item value (leads.item position) rfl

/-! ### Fields -/

mutual

theorem executeField (node : PlanNode) (parent : ResolvedValue Object) (path : ResponsePath)
    (leads : top.LeadsTo env.bindings path node) :
    Inside env top (env.recorded.executeField node parent path) := by
  match node with
  | ⟨key, name, owner, returnType, arguments, spans, locations, conditions, typedChildren⟩ =>
      simp only [Environment.executeField]
      refine (resolve leads parent).bind fun progress => ?_
      cases (Run.ask (env.recorded.resolve _ parent path) progress).1 with
      | error error => exact .fail leads error
      | ok value =>
          refine completeWith ?_ _ _ leads
          intro type value path leads
          exact executeTyped typedChildren type value path fun _ typed _ _ => leads.typed typed

theorem executeTyped (typedChildren : List (String × List (String × PlanNode))) (type : String)
    (value : ResolvedValue Object) (path : ResponsePath)
    (leads : ∀ typed ∈ typedChildren, ∀ key node, (key, node) ∈ typed.2 →
      node.isIncluded env.bindings = true →
        top.LeadsTo env.bindings (path ++ [.field node.responseKey]) node) :
    Inside env top (env.recorded.executeTyped typedChildren type value path) := by
  match typedChildren with
  | [] =>
      simp only [Environment.executeTyped]
      exact .pure _
  | (name, children) :: rest =>
      simp only [Environment.executeTyped]
      by_cases same : name = type
      · rw [if_pos same]
        exact (executeFields children value path (leads _ List.mem_cons_self)).map _
      · rw [if_neg same]
        exact executeTyped rest type value path fun typed member =>
          leads typed (List.mem_cons_of_mem _ member)

theorem executeFields (children : List (String × PlanNode)) (parent : ResolvedValue Object)
    (path : ResponsePath)
    (leads : ∀ key node, (key, node) ∈ children → node.isIncluded env.bindings = true →
      top.LeadsTo env.bindings (path ++ [.field node.responseKey]) node) :
    Inside env top (env.recorded.executeFields children parent path) := by
  match children with
  | [] =>
      simp only [Environment.executeFields]
      exact .pure _
  | (key, node) :: rest =>
      have others := executeFields rest parent path fun key node member =>
        leads key node (List.mem_cons_of_mem _ member)
      simp only [Environment.executeFields]
      by_cases included : node.isIncluded env.bindings = true
      · rw [if_pos (show node.isIncluded env.recorded.bindings = true from included)]
        refine (executeField node parent _ (leads key node List.mem_cons_self included)).bind
          fun progress => ?_
        cases ResponseTree.filled (!node.returnType.isNonNull) _ with
        | none => exact .pure _
        | some tree => exact others.map _
      · rw [if_neg (show ¬node.isIncluded env.recorded.bindings = true from included)]
        exact others

end

/-! ### Rounds -/

theorem finish (tree : ResponseTree) {task : Task Object}
    (leads : top.LeadsTo env.bindings task.path task.node)
    (forced : Except ExecutionError (ResolvedValue Object)) :
    Inside env top (env.recorded.finish tree task forced) := by
  unfold Environment.finish
  cases tree.isLive task.path with
  | false => exact .pure _
  | true =>
      cases forced with
      | error error => exact (fail leads error).map _
      | ok value =>
          refine (completeWith ?_ task.type value leads).map _
          intro type value path leads
          exact executeTyped _ type value path fun _ typed _ _ => leads.typed typed

theorem finishAll (tree : ResponseTree)
    {answers : List (Task Object × Except ExecutionError (ResolvedValue Object))}
    (leads : ∀ entry ∈ answers, top.LeadsTo env.bindings entry.1.path entry.1.node) :
    Inside env top (env.recorded.finishAll tree answers) := by
  induction answers generalizing tree with
  | nil => exact .pure _
  | cons entry rest ih =>
      refine (finish tree (leads entry List.mem_cons_self) entry.2).bind fun progress => ?_
      exact ih _ fun other member => leads other (List.mem_cons_of_mem _ member)

theorem recordedForceAll (tasks : List (Task Object)) :
    Inside env top (env.recordedForceAll tasks) := by
  induction tasks with
  | nil => exact .pure _
  | cons task rest ih =>
      refine (lift (env.force task.value)).bind fun _ => ?_
      exact (log rfl).bind fun _ => ih.map _

theorem mem_of_mem_recordedForceAll {tasks : List (Task Object)}
    {progress : Progress (Record σ Object) Object}
    {entry : Task Object × Except ExecutionError (ResolvedValue Object)}
    (member : entry ∈ (env.recordedForceAll tasks progress).1) : entry.1 ∈ tasks := by
  induction tasks generalizing progress with
  | nil => cases member
  | cons task rest ih =>
      rcases List.mem_cons.mp member with rfl | member
      · exact List.mem_cons_self
      · exact List.mem_cons_of_mem _ (ih member)

theorem recordedRound (tree : ResponseTree) : Inside env top (env.recordedRound tree) := by
  intro progress now
  have opened : Progress.IsInside top env.bindings
      (Run.log (.opened tree progress.queue) { progress with queue := [] }).2 :=
    log rfl _ ⟨now.calls, now.errors, fun task member => absurd member List.not_mem_nil⟩
  have forced := recordedForceAll (progress.queue.filter fun task => tree.isLive task.path) _ opened
  refine finishAll tree ?_ _ forced
  intro entry member
  exact now.tasks _ (List.mem_of_mem_filter (mem_of_mem_recordedForceAll member))

theorem recordedSettle (rounds : Nat) (tree : ResponseTree) :
    Inside env top (env.recordedSettle rounds tree) := by
  induction rounds generalizing tree with
  | zero => exact .pure _
  | succ rounds ih =>
      intro progress now
      rw [Environment.recordedSettle_succ]
      split
      · exact now
      · exact ih _ _ (recordedRound tree progress now)

theorem recordedInTurn (bound : Nat) (root : ResolvedValue Object)
    {children : List (String × PlanNode)} (within : children ⊆ top) (tree : ResponseTree) :
    Inside env top (env.recordedInTurn bound root children tree) := by
  induction children generalizing tree with
  | nil => exact .pure _
  | cons entry rest ih =>
      rcases entry with ⟨key, node⟩
      rcases List.cons_subset.mp within with ⟨member, within⟩
      intro progress now
      rw [recordedInTurn_cons]
      split
      · exact now
      · split
        · exact ih within _ _ now
        · rename_i included
          have leads : top.LeadsTo env.bindings [.field node.responseKey] node :=
            .root (List.mem_map_of_mem member) (by simpa using included)
          exact ih within _ _ (recordedSettle bound _ _ (executeField node root _ leads _ now))

theorem recordedTogether (root : ResolvedValue Object) :
    Inside env top (env.recordedTogether top root) :=
  (executeFields top root [] fun _ _ member included =>
    .root (List.mem_map_of_mem member) included).bind fun _ => recordedSettle _ _

theorem recordedOperation (operation : PlanOperation) (root : ResolvedValue Object) :
    Inside env operation.children (env.recordedOperation operation root) := by
  unfold Environment.recordedOperation
  cases operation.kind with
  | mutation => exact recordedInTurn _ root (List.Subset.refl _) _
  | query => exact recordedTogether root
  | subscription => exact recordedTogether root

end Run.Keeps

/-! ## The limit on the depth -/

/-- The operations of a plan start at object types of a schema. -/
def Plan.IsOver (schema : Schema) (plan : Plan) : Prop :=
  ∀ entry ∈ plan.operations, schema.isObjectType entry.2.rootType = true

/-- The plan of a document is one over its schema. -/
theorem Plan.isOver_ofDocument {schema : Schema} (wellFormed : schema.IsWellFormed)
    (document : Document) (lines? : Option LineIndex) :
    (Plan.ofDocument schema document lines?).IsOver schema := by
  intro entry member
  rcases exists_operation_of_mem_ofDocument member with ⟨definition, _, made⟩
  rcases Option.bind_eq_some_iff.mp made with ⟨root, starts, same⟩
  have rootType : entry.2.rootType = root.name := by rw [← Option.some.inj same]
  rcases rootType?_eq_some starts with ⟨found, isObject⟩
  rcases Option.bind_eq_some_iff.mp found with ⟨name, _, known⟩
  rw [rootType, Schema.isObjectType, wellFormed.type?_name known]
  exact isObject

theorem Plan.IsOver.selected {schema : Schema} {plan : Plan} (fits : plan.IsOver schema)
    {name : Option String} {operation : PlanOperation}
    (selected : plan.operation? name = some operation) :
    schema.isObjectType operation.rootType = true := by
  unfold Plan.operation? at selected
  split at selected
  · exact fits _ (OrderedMap.mem_of_find? selected)
  · split at selected
    · rename_i alone
      rw [← Option.some.inj selected]
      exact fits _ (alone ▸ List.mem_singleton_self _)
    · cases selected

namespace Executor

variable {host : Host} {executor : Executor host} {plan : Plan} {operation : PlanOperation}

/-- Whether a selected operation is executed depends on its depth only. -/
theorem prepare_of_limited {limit : Nat} (limited : executor.limits.maxDepth = some limit)
    (fits : plan.IsOver executor.schema) {name : Option String}
    (selected : plan.operation? name = some operation) (bindings : Variables) :
    executor.prepare plan name bindings =
      let bindings := operation.defaultVariables.override bindings
      if limit < operation.depth bindings then
        .error (.tooDeep (operation.depth bindings) limit)
      else .ok (operation, bindings) := by
  unfold prepare
  simp only [selected, limited, pure_bind, fits.selected selected, Bool.not_true,
    Bool.false_eq_true, if_false]
  rfl

/-- What is recorded of an operation stays within its depth. -/
theorem fieldCount_le_depth (executor : Executor host) (request : Request host)
    (operation : PlanOperation) (bindings : Variables) (session : Session host) :
    let record := executor.record request operation bindings session
    (∀ call, .resolved call ∈ record.2.outside.trace →
      ResponsePath.fieldCount call.path ≤ operation.depth bindings) ∧
      ∀ error ∈ record.2.errors, ∃ path, error.path = some path ∧
        ResponsePath.fieldCount path ≤ operation.depth bindings := by
  intro record
  let unbegun : Progress (Record (Session host) host.Object) host.Object :=
    { outside := { outside := session } }
  have start : unbegun.IsInside operation.children bindings :=
    ⟨by simp [unbegun], by simp [unbegun], by simp [unbegun]⟩
  have inside : Progress.IsInside operation.children bindings record.2 :=
    @Run.Keeps.recordedOperation _ _ (executor.environment bindings request.context) operation
      request.root _ start
  refine ⟨?_, ?_⟩
  · intro call member
    exact Nat.le_of_add_right_le (inside.calls call member).fieldCount_le
  · intro error member
    rcases inside.errors error member with ⟨path, node, isHere, leads⟩
    exact ⟨path, isHere, Nat.le_of_add_right_le leads.fieldCount_le⟩

/-- The limit on the depth is exact and holds while an operation is executed. The operation is refused
before anything is asked of the host just if some chain of included nodes is longer than the limit.
Otherwise every field that is resolved, and every error, is at a path of no more fields. -/
theorem execute_limits_depth {limit : Nat} (limited : executor.limits.maxDepth = some limit)
    (fits : plan.IsOver executor.schema) {request : Request host}
    (selected : plan.operation? request.operation = some operation) (session : Session host) :
    let bindings := operation.defaultVariables.override request.bindings
    let refusal : Response × Session host :=
      (.ofError (ExecutionError.tooDeep (operation.depth bindings) limit).toFieldError, session)
    (executor.execute plan request session = refusal ↔
      ∃ chain, PlanNode.IsChain (·.isIncluded bindings) operation.children chain ∧
        limit < chain.length) ∧
    (executor.execute plan request session ≠ refusal →
      let record := executor.record request operation bindings session
      executor.execute plan request session =
          (.ofData record.1.toJson record.2.errors, record.2.outside.outside) ∧
        (∀ call, .resolved call ∈ record.2.outside.trace →
          ResponsePath.fieldCount call.path ≤ limit) ∧
        ∀ error ∈ record.2.errors, ∃ path, error.path = some path ∧
          ResponsePath.fieldCount path ≤ limit) := by
  intro bindings refusal
  have prepares := prepare_of_limited limited fits selected request.bindings
  have longest : limit < operation.depth bindings ↔
      ∃ chain, PlanNode.IsChain (·.isIncluded bindings) operation.children chain ∧
        limit < chain.length := by
    have greatest := (PlanNode.measures_childrenDepth bindings).isGreatest operation.children
    simp only [List.map_const', List.sum_replicate_nat, Nat.mul_one] at greatest
    constructor
    · intro tooDeep
      rcases greatest.1 with ⟨chain, isChain, length⟩
      exact ⟨chain, isChain, length ▸ tooDeep⟩
    · rintro ⟨chain, isChain, tooLong⟩
      exact Nat.lt_of_lt_of_le tooLong (greatest.2 ⟨chain, isChain, rfl⟩)
  rw [← longest]
  by_cases tooDeep : limit < operation.depth bindings
  · have refused : executor.execute plan request session = refusal := by
      rw [if_pos tooDeep] at prepares
      unfold execute
      rw [prepares]
    exact ⟨⟨fun _ => tooDeep, fun _ => refused⟩, fun other => absurd refused other⟩
  · rw [if_neg tooDeep] at prepares
    have executed := execute_eq_record prepares session
    refine ⟨⟨?_, fun deep => absurd deep tooDeep⟩, fun _ => ?_⟩
    · intro refused
      rw [executed] at refused
      cases congrArg (fun answer => answer.1.data.isSome) refused
    · rcases executor.fieldCount_le_depth request operation bindings session with ⟨calls, errors⟩
      have bound := Nat.not_lt.mp tooDeep
      refine ⟨executed, fun call member => Nat.le_trans (calls call member) bound, ?_⟩
      intro error member
      rcases errors error member with ⟨path, isHere, count⟩
      exact ⟨path, isHere, Nat.le_trans count bound⟩

end Executor

namespace ConditionalDepth

def source : String :=
  "type Query { a: Query }"

def schema : Schema :=
  (Schema.ofSource source).toOption.getD {}

/-- The innermost field counts only if a variable says so, which by default it does not. -/
def document : Document :=
  ((Document.parse
      "query($deep: Boolean = false) { a { a { __typename @include(if: $deep) } } }").toOption.map
    (·.document)).getD ⟨[], ⟨0, 0⟩⟩

def plan : Plan :=
  Plan.ofDocument schema document none

def executor : Executor LazyFields.host :=
  { LazyFields.executor schema with limits := { maxDepth := some 2 } }

def shallow : Request LazyFields.host where
  root := .ofJson (.object [("a", .object [("a", .object [])])])

def deep : Request LazyFields.host :=
  { shallow with bindings := [("deep", .bool true)] }

theorem evaluation :
    (Schema.ofSource source).toBool = true ∧
      (plan.operation? none).any (fun operation =>
        operation.depth (operation.defaultVariables.override deep.bindings) == 3 &&
          operation.depth (operation.defaultVariables.override shallow.bindings) == 2) = true := by
  decide +kernel

/-- With the variable the operation is refused at once. Without it two fields are as deep as an
execution goes. -/
theorem refused_if_deep :
    executor.execute plan deep LazyFields.session =
        (.ofError (ExecutionError.tooDeep 3 2).toFieldError, LazyFields.session) ∧
      ∃ operation bindings, plan.operation? none = some operation ∧
        let record := executor.record shallow operation bindings LazyFields.session
        executor.execute plan shallow LazyFields.session =
            (.ofData record.1.toJson record.2.errors, record.2.outside.outside) ∧
          ∀ call, .resolved call ∈ record.2.outside.trace →
            ResponsePath.fieldCount call.path ≤ 2 := by
  rcases evaluation with ⟨accepted, depths⟩
  have fits : plan.IsOver executor.schema :=
    Plan.isOver_ofDocument (Schema.ofSource_isWellFormed (eq_ok_of_toBool accepted {})) _ _
  rcases (Option.any_eq_true _ _).mp depths with ⟨operation, selected, depths⟩
  rw [Bool.and_eq_true, beq_iff_eq, beq_iff_eq] at depths
  rcases depths with ⟨deepDepth, shallowDepth⟩
  have limited : executor.limits.maxDepth = some 2 := rfl
  have selectedDeep : plan.operation? deep.operation = some operation := selected
  have selectedShallow : plan.operation? shallow.operation = some operation := selected
  constructor
  · rcases (PlanNode.measures_childrenDepth
        (operation.defaultVariables.override deep.bindings)).exists_chain operation.children with
      ⟨chain, isChain, length⟩
    rw [List.map_const', List.sum_replicate_nat, Nat.mul_one] at length
    have three : chain.length = 3 := length.trans deepDepth
    have exactly := Executor.execute_limits_depth limited fits selectedDeep LazyFields.session
    have refused := exactly.1.mpr ⟨chain, isChain, by omega⟩
    rwa [deepDepth] at refused
  · have exactly := Executor.execute_limits_depth limited fits selectedShallow LazyFields.session
    have passes : ¬∃ chain, PlanNode.IsChain
        (·.isIncluded (operation.defaultVariables.override shallow.bindings)) operation.children
        chain ∧ 2 < chain.length := by
      rintro ⟨chain, isChain, tooLong⟩
      have bound := (PlanNode.measures_childrenDepth _).sum_le isChain
      rw [List.map_const', List.sum_replicate_nat, Nat.mul_one] at bound
      exact absurd (Nat.le_trans bound (Nat.le_of_eq shallowDepth)) (Nat.not_le.mpr tooLong)
    rcases exactly.2 fun refused => passes (exactly.1.mp refused) with ⟨executed, calls, _⟩
    exact ⟨operation, _, selected, executed, calls⟩

end ConditionalDepth

end GraphQL

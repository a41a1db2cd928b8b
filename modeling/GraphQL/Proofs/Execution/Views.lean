import GraphQL.Execution.Settling
import GraphQL.Proofs.Execution.Settling

/-!
# Views of executions

An environment may know more than another one of which it is a more detailed form. An execution does
not look at what the environment knows, so in the more detailed environment it does the same, and
ends in a state of which the other state is the view.

With the states that satisfy a condition as the detailed form this says that an execution keeps what
every question keeps.
-/

namespace GraphQL

variable {τ σ Object α β : Type}

/-- An execution as it is seen without the details of its environment. -/
def Progress.view (view : τ → σ) (progress : Progress τ Object) : Progress σ Object where
  outside := view progress.outside
  errors := progress.errors
  queue := progress.queue

/-- A question with details is answered like the question without them. -/
def Question.Projects (view : τ → σ) (detailed : StateM τ α) (plain : StateM σ α) : Prop :=
  ∀ state, plain (view state) = ((detailed state).1, view (detailed state).2)

/-- An environment is a more detailed form of another one as far as completing values goes. -/
structure Environment.Projects (view : τ → σ) (detailed : Environment τ Object)
    (env : Environment σ Object) : Prop where
  schema : detailed.schema = env.schema
  bindings : detailed.bindings = env.bindings
  isLazy : detailed.isLazy = env.isLazy
  resolve : ∀ node parent path,
    Question.Projects view (detailed.resolve node parent path) (env.resolve node parent path)
  typeOf : ∀ name value, Question.Projects view (detailed.typeOf name value) (env.typeOf name value)

/-- A run with details does what the run without them does. -/
def Run.Projects (view : τ → σ) (detailed : Run τ Object α) (plain : Run σ Object α) : Prop :=
  ∀ progress, plain (progress.view view) = ((detailed progress).1, (detailed progress).2.view view)

namespace Run.Projects

variable {view : τ → σ}

theorem pure (value : α) :
    Projects view (Pure.pure value : Run τ Object α) (Pure.pure value : Run σ Object α) :=
  fun _ => rfl

theorem bind {detailed : Run τ Object α} {plain : Run σ Object α}
    {after : α → Run τ Object β} {next : α → Run σ Object β}
    (first : Projects view detailed plain) (rest : ∀ value, Projects view (after value) (next value)) :
    Projects view (detailed >>= after) (plain >>= next) := by
  intro progress
  change next (plain (progress.view view)).1 (plain (progress.view view)).2 = _
  rw [first progress]
  exact rest _ _

theorem map {detailed : Run τ Object α} {plain : Run σ Object α}
    (first : Projects view detailed plain) (change : α → β) :
    Projects view (do return change (← detailed)) (do return change (← plain)) :=
  first.bind fun _ => .pure _

theorem ask {detailed : StateM τ α} {plain : StateM σ α}
    (question : Question.Projects view detailed plain) :
    Projects view (Run.ask detailed) (Run.ask plain : Run σ Object α) := by
  intro progress
  simp only [Run.ask, Progress.view, question progress.outside]
  rfl

theorem fail (node : PlanNode) (path : ResponsePath) (error : ExecutionError) :
    Projects view (Run.fail node path error : Run τ Object (Option α))
      (Run.fail node path error) :=
  fun _ => rfl

theorem postpone (task : Task Object) :
    Projects view (Run.postpone task) (Run.postpone task : Run σ Object _) :=
  fun _ => rfl

/-! ## Completing values -/

variable {detailed : Environment τ Object} {env : Environment σ Object}

section

variable (views : Environment.Projects view detailed env)

include views

theorem objectType? (type : SchemaType) (value : ResolvedValue Object) :
    Projects view (detailed.objectType? type value) (env.objectType? type value) := by
  unfold Environment.objectType?
  rw [views.schema]
  cases type.isObject with
  | true => exact .pure _
  | false =>
      refine (ask (views.typeOf _ _)).bind fun name? => ?_
      cases name? with
      | some name => exact .pure _
      | none =>
          simp only
          split <;> exact .pure _

omit views in
theorem completeItems
    {traced : ResolvedValue Object → ResponsePath →
      Run τ Object (Option ResponseTree)}
    {plain : ResolvedValue Object → ResponsePath → Run σ Object (Option ResponseTree)}
    (each : ∀ value path, Projects view (traced value path) (plain value path)) (nullable : Bool)
    (path : ResponsePath) (position : Nat) (values : List (ResolvedValue Object)) :
    Projects view (Environment.completeItems traced nullable path position values)
      (Environment.completeItems plain nullable path position values) := by
  induction values generalizing position with
  | nil => exact .pure _
  | cons value rest ih =>
      refine (each _ _).bind fun made => ?_
      cases ResponseTree.filled nullable made with
      | none => exact .pure _
      | some tree => exact (ih _).map _

variable {node : PlanNode}
  {traced : String → ResolvedValue Object → ResponsePath →
    Run τ Object (Option ResponseTree)}
  {plain : String → ResolvedValue Object → ResponsePath → Run σ Object (Option ResponseTree)}

theorem completeNamed
    (fields : ∀ type value path, Projects view (traced type value path) (plain type value path))
    (type : TypeRef) (name : String) (value : ResolvedValue Object) (path : ResponsePath) :
    Projects view (detailed.completeNamed node traced type name value path)
      (env.completeNamed node plain type name value path) := by
  unfold Environment.completeNamed
  rw [views.schema]
  cases env.schema.type? name with
  | none => exact .fail _ _ _
  | some found =>
      simp only
      by_cases isLeaf : found.isLeaf = true
      · rw [if_pos isLeaf, if_pos isLeaf]
        cases value with
        | json value => exact .pure _
        | _ => exact .fail _ _ _
      · rw [if_neg isLeaf, if_neg isLeaf]
        by_cases isComposite : found.isComposite = true
        · rw [if_pos isComposite, if_pos isComposite]
          refine (objectType? views _ _).bind fun type? => ?_
          cases type? with
          | none => exact .fail _ _ _
          | some objectType => exact fields _ _ _
        · rw [if_neg isComposite, if_neg isComposite]
          exact .fail _ _ _

theorem completeWith
    (fields : ∀ type value path, Projects view (traced type value path) (plain type value path))
    (type : TypeRef) (value : ResolvedValue Object) (path : ResponsePath) :
    Projects view (detailed.completeWith node traced type value path)
      (env.completeWith node plain type value path) := by
  unfold Environment.completeWith
  rw [views.isLazy]
  by_cases isLazy : env.isLazy value = true
  · rw [if_pos isLazy, if_pos isLazy]
    exact .postpone _
  · rw [if_neg isLazy, if_neg isLazy]
    by_cases isNull : value.isNull = true
    · rw [if_pos isNull, if_pos isNull]
      cases type.isNonNull with
      | true => exact .fail _ _ _
      | false => exact .pure _
    · rw [if_neg isNull, if_neg isNull]
      cases type with
      | named name => exact completeNamed views fields _ _ _ _
      | list item =>
          simp only
          cases value.items? with
          | none => exact .fail _ _ _
          | some items =>
              exact (completeItems (completeWith fields item) _ _ _ _).map _
      | nonNull inner =>
          cases inner with
          | named name => exact completeNamed views fields _ _ _ _
          | list item =>
              simp only
              cases value.items? with
              | none => exact .fail _ _ _
              | some items =>
                  exact (completeItems (completeWith fields item) _ _ _ _).map _
          | nonNull inner => exact completeWith fields inner value path

end

mutual

theorem executeField (views : Environment.Projects view detailed env) (node : PlanNode)
    (parent : ResolvedValue Object) (path : ResponsePath) :
    Projects view (detailed.executeField node parent path) (env.executeField node parent path) := by
  match node with
  | ⟨_, _, _, _, _, _, _, _, typedChildren⟩ =>
      simp only [Environment.executeField]
      refine (ask (views.resolve _ _ _)).bind fun answer => ?_
      cases answer with
      | error error => exact .fail _ _ _
      | ok value =>
          exact completeWith views (fun type value path => executeTyped views typedChildren type value path) _ _ _

theorem executeTyped (views : Environment.Projects view detailed env)
    (typedChildren : List (String × List (String × PlanNode))) (type : String)
    (value : ResolvedValue Object) (path : ResponsePath) :
    Projects view (detailed.executeTyped typedChildren type value path)
      (env.executeTyped typedChildren type value path) := by
  match typedChildren with
  | [] =>
      simp only [Environment.executeTyped]
      exact .pure _
  | (name, children) :: rest =>
      simp only [Environment.executeTyped]
      by_cases same : name = type
      · rw [if_pos same, if_pos same]
        exact (executeFields views children value path).map _
      · rw [if_neg same, if_neg same]
        exact executeTyped views rest type value path

theorem executeFields (views : Environment.Projects view detailed env)
    (children : List (String × PlanNode)) (parent : ResolvedValue Object)
    (path : ResponsePath) :
    Projects view (detailed.executeFields children parent path)
      (env.executeFields children parent path) := by
  match children with
  | [] =>
      simp only [Environment.executeFields]
      exact .pure _
  | (key, node) :: rest =>
      simp only [Environment.executeFields]
      rw [views.bindings]
      by_cases included : node.isIncluded env.bindings = true
      · rw [if_pos included, if_pos included]
        refine (executeField views node parent _).bind fun made => ?_
        cases ResponseTree.filled (!node.returnType.isNonNull) made with
        | none => exact .pure _
        | some tree => exact (executeFields views rest parent path).map _
      · rw [if_neg included, if_neg included]
        exact executeFields views rest parent path

end

section

variable (views : Environment.Projects view detailed env)

include views

theorem finish (tree : ResponseTree) (task : Task Object)
    (forced : Except ExecutionError (ResolvedValue Object)) :
    Projects view (detailed.finish tree task forced) (env.finish tree task forced) := by
  unfold Environment.finish
  by_cases isLive : tree.isLive task.path = true
  · rw [if_pos isLive, if_pos isLive]
    cases forced with
    | error error => exact (fail _ _ _).map _
    | ok value => exact (completeWith views (executeTyped views _) _ _ _).map _
  · rw [if_neg isLive, if_neg isLive]
    exact .pure _

theorem finishAll (tree : ResponseTree)
    (answers : List (Task Object × Except ExecutionError (ResolvedValue Object))) :
    Projects view (detailed.finishAll tree answers) (env.finishAll tree answers) := by
  induction answers generalizing tree with
  | nil => exact .pure _
  | cons entry rest ih => exact (finish views _ _ _).bind ih

/-! ## Rounds and operations -/

variable (forces : ∀ value, Question.Projects view (detailed.force value) (env.force value))

include forces

omit views in
theorem forceAll (tasks : List (Task Object)) :
    Projects view (detailed.forceAll tasks) (env.forceAll tasks) := by
  induction tasks with
  | nil => exact .pure _
  | cons task rest ih => exact (ask (forces task.value)).bind fun forced => ih.map _

theorem round (tree : ResponseTree) : Projects view (detailed.round tree) (env.round tree) := by
  intro progress
  have forced := forceAll forces (progress.queue.filter fun task => tree.isLive task.path)
  exact (forced.bind (finishAll views tree)) { progress with queue := [] }

theorem settle (rounds : Nat) (tree : ResponseTree) :
    Projects view (detailed.settle rounds tree) (env.settle rounds tree) := by
  induction rounds generalizing tree with
  | zero => exact .pure _
  | succ rounds ih =>
      intro progress
      rw [Environment.settle_succ, Environment.settle_succ]
      change (if progress.queue.isEmpty = true then _ else _) = _
      by_cases isEmpty : progress.queue.isEmpty = true
      · rw [if_pos isEmpty, if_pos isEmpty]
      · rw [if_neg isEmpty, if_neg isEmpty]
        exact (round views forces tree).bind ih progress

theorem executeTogether (children : PlanChildren) (root : ResolvedValue Object) :
    Projects view (detailed.executeTogether children root) (env.executeTogether children root) :=
  (executeFields views _ _ _).bind fun _ => settle views forces _ _

theorem executeInTurn (bound : Nat) (root : ResolvedValue Object) (children : PlanChildren)
    (tree : ResponseTree) :
    Projects view (detailed.executeInTurn bound root children tree)
      (env.executeInTurn bound root children tree) := by
  induction children generalizing tree with
  | nil => exact .pure _
  | cons entry rest ih =>
      rcases entry with ⟨key, node⟩
      rw [Environment.executeInTurn, Environment.executeInTurn, views.bindings]
      split
      · exact .pure _
      · split
        · exact ih _
        · exact (executeField views _ _ _).bind fun made => (settle views forces _ _).bind ih

theorem executeOperation (operation : PlanOperation) (root : ResolvedValue Object) :
    Projects view (detailed.executeOperation operation root)
      (env.executeOperation operation root) := by
  unfold Environment.executeOperation
  cases operation.kind with
  | mutation => exact executeInTurn views forces _ _ _ _
  | query => exact executeTogether views forces _ _
  | subscription => exact executeTogether views forces _ _

end

end Run.Projects

/-! ## Conditions -/

namespace Environment

/-- Resolving fields and naming types keeps a condition. -/
structure Keeps (env : Environment σ Object) (condition : σ → Prop) : Prop where
  resolve : ∀ node parent path state, condition state →
    condition (env.resolve node parent path state).2
  typeOf : ∀ name value state, condition state → condition (env.typeOf name value state).2

variable {env : Environment σ Object} {condition : σ → Prop}

/-- The environment on the states that satisfy a condition. Completing values forces nothing. -/
def Keeps.within (keeps : env.Keeps condition) : Environment { state // condition state } Object where
  schema := env.schema
  bindings := env.bindings
  isLazy := env.isLazy
  force value state := (.ok value, state)
  resolve node parent path state :=
    ((env.resolve node parent path state.1).1,
      ⟨_, keeps.resolve node parent path state.1 state.2⟩)
  typeOf name value state :=
    ((env.typeOf name value state.1).1, ⟨_, keeps.typeOf name value state.1 state.2⟩)

theorem Keeps.projects (keeps : env.Keeps condition) :
    Projects Subtype.val keeps.within env where
  schema := rfl
  bindings := rfl
  isLazy := rfl
  resolve _ _ _ _ := rfl
  typeOf _ _ _ := rfl

/-- A run that is seen through the condition ends where the condition holds. -/
theorem Keeps.of_projects {within : Run { state // condition state } Object α}
    {run : Run σ Object α} (projects : Run.Projects Subtype.val within run)
    {progress : Progress σ Object} (holds : condition progress.outside) :
    condition (run progress).2.outside := by
  have seen := projects ⟨⟨progress.outside, holds⟩, progress.errors, progress.queue⟩
  have same := congrArg (fun result => result.2.outside) seen
  exact same ▸ (within ⟨⟨progress.outside, holds⟩, progress.errors, progress.queue⟩).2.outside.2

theorem Keeps.executeField (keeps : env.Keeps condition) (node : PlanNode)
    (parent : ResolvedValue Object) (path : ResponsePath) {progress : Progress σ Object}
    (holds : condition progress.outside) :
    condition (env.executeField node parent path progress).2.outside :=
  of_projects (.executeField keeps.projects node parent path) holds

theorem Keeps.executeFields (keeps : env.Keeps condition) (children : PlanChildren)
    (parent : ResolvedValue Object) (path : ResponsePath) {progress : Progress σ Object}
    (holds : condition progress.outside) :
    condition (env.executeFields children parent path progress).2.outside :=
  of_projects (.executeFields keeps.projects children parent path) holds

theorem Keeps.finishAll (keeps : env.Keeps condition) (tree : ResponseTree)
    (answers : List (Task Object × Except ExecutionError (ResolvedValue Object)))
    {progress : Progress σ Object} (holds : condition progress.outside) :
    condition (env.finishAll tree answers progress).2.outside :=
  of_projects (.finishAll keeps.projects tree answers) holds

end Environment

end GraphQL

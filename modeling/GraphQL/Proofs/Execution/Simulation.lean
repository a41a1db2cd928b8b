import GraphQL.Proofs.Execution.Agreement

/-!
# Executions and direct evaluations

Code that is asked in some state answers as code without effects does, up to how values are
represented: a lazy value can be the number of a cell whose content is known only in the state.
Asking changes the state, but what represents a value goes on doing so.

A step of an execution adds tasks to the queue and records errors. What it makes for a place fits
the report of the direct evaluation, every task belongs to a place of the report, and the errors are
among those of the report.
-/

namespace GraphQL

variable {σ Object Value : Type}

/-- Two answers are values of which one represents the other, or the same error. -/
def Answered {ε : Type} (represents : ResolvedValue Object → Value → Prop) :
    Except ε (ResolvedValue Object) → Except ε Value → Prop
  | .ok value, .ok plain => represents value plain
  | .error error, .error other => error = other
  | _, _ => False

theorem Answered.imp {ε : Type} {relates others : ResolvedValue Object → Value → Prop}
    {answer : Except ε (ResolvedValue Object)} {expected : Except ε Value}
    (answered : Answered relates answer expected)
    (implies : ∀ value plain, expected = .ok plain → relates value plain → others value plain) :
    Answered others answer expected := by
  cases answer <;> cases expected
  · exact answered
  · exact answered
  · exact answered
  · exact implies _ _ rfl answered

/-- What represents a value in one state does so in another one. -/
def Keeps (represents : σ → ResolvedValue Object → Value → Prop) (before after : σ) : Prop :=
  ∀ value plain, represents before value plain → represents after value plain

/-- Code that is asked in a state answers as code without effects. -/
structure Simulates (env : Environment σ Object) (pure : PureEnvironment Value)
    (represents : σ → ResolvedValue Object → Value → Prop) : Prop where
  schema : env.schema = pure.schema
  bindings : env.bindings = pure.bindings
  isNull : ∀ {state value plain}, represents state value plain →
    value.isNull = pure.isNull plain
  json? : ∀ {state value plain}, represents state value plain → value.json? = pure.json? plain
  items? : ∀ {state value plain}, represents state value plain →
    Option.Rel (List.Forall₂ (represents state)) value.items? (pure.items? plain)
  eager : ∀ {state value plain}, represents state value plain → env.isLazy value = false →
    pure.force plain = .ok plain
  force : ∀ {state value plain}, represents state value plain →
    Keeps represents state (env.force value state).2 ∧
      Answered (fun next plain => represents (env.force value state).2 next plain ∧
        env.isLazy next = false) (env.force value state).1 (pure.force plain)
  resolve : ∀ {state value plain}, represents state value plain → ∀ node path,
    Keeps represents state (env.resolve node value path state).2 ∧
      Answered (represents (env.resolve node value path state).2)
        (env.resolve node value path state).1 (pure.resolve node plain path)
  typeOf : ∀ {state value plain}, represents state value plain → ∀ name,
    Keeps represents state (env.typeOf name value state).2 ∧
      (env.typeOf name value state).1 = pure.typeOf name plain

/-! ## Tasks and places -/

/-- How many rounds a task and what comes of it can need. -/
def Task.height (task : Task Object) : Nat :=
  1 + task.type.listDepth + PlanNode.typedPlaces task.node.typedChildren

/-- The open places that tasks wait for. -/
def awaits (tasks : List (Task Object)) (path : ResponsePath) : Prop :=
  ∃ task ∈ tasks, task.path = path

section

variable (represents : σ → ResolvedValue Object → Value → Prop) (pure : PureEnvironment Value)
  (top : PlanChildren) (root : Value)

/-- A task belongs to a place and has its value. -/
structure Task.IsPending (task : Task Object) (state : σ) (plain : Value) : Prop where
  represented : represents state task.value plain
  place : pure.placeAt top root task.path =
    some { node := task.node, type := task.type, outcome := .ok plain }
  keyed : ∀ typed ∈ task.node.typedChildren, PlanChildren.IsKeyed typed.2

/-- A step keeps what is represented, and adds tasks and errors. -/
structure Adds (before after : Progress σ Object) (tasks : List (Task Object))
    (errors : List FieldError) : Prop where
  keeps : Keeps represents before.outside after.outside
  queue : after.queue = before.queue ++ tasks
  errors : after.errors = before.errors ++ errors

/-- Tasks belong to places; they are of limited height, and below them the report has no errors
but those that satisfy a predicate. -/
def TasksWithin (tasks : List (Task Object)) (state : σ) (limit : Nat)
    (met : FieldError → Prop) : Prop :=
  ∀ task ∈ tasks, (∃ plain, task.IsPending represents pure top root state plain) ∧
    task.height ≤ limit ∧ ∀ error ∈ (pure.report top root task.path).errors, met error

/-- A step at a place makes what fits there. -/
def Advances (path : ResponsePath) (limit : Nat) (before : Progress σ Object)
    (step : Option ResponseTree × Progress σ Object) : Prop :=
  ∃ tasks errors, Adds represents before step.2 tasks errors ∧
    TasksWithin represents pure top root tasks step.2.outside limit
      (· ∈ (pure.report top root path).errors) ∧
    errors ⊆ (pure.report top root path).errors ∧
    ∀ nullable, Agrees.Fits (pure.report top root) (errors = []) (awaits tasks) nullable step.1 path

/-- Some of the siblings below a path report an error. -/
def MetBelow (path : ResponsePath) (siblings : List (PathSegment × Bool)) (error : FieldError) :
    Prop :=
  ∃ sibling ∈ siblings, error ∈ (pure.report top root (path ++ [sibling.1])).errors

/-- Steps at siblings make what fits at their places, or fail with one that cannot be null. -/
def AdvanceAll (path : ResponsePath) (siblings : List (PathSegment × Bool)) (limit : Nat)
    (before : Progress σ Object) (step : Option (List ResponseTree) × Progress σ Object) : Prop :=
  ∃ tasks errors, Adds represents before step.2 tasks errors ∧
    TasksWithin represents pure top root tasks step.2.outside limit
      (MetBelow pure top root path siblings) ∧
    (∀ error ∈ errors, MetBelow pure top root path siblings error) ∧
    match step.1 with
    | some trees => List.Forall₂ (fun sibling tree =>
        Agrees (pure.report top root) (errors = []) (awaits tasks) sibling.2 tree
          (path ++ [sibling.1])) siblings trees
    | none => errors ≠ [] ∧ ∃ sibling ∈ siblings, sibling.2 = false ∧
        (pure.report top root (path ++ [sibling.1])).result = none

end

section

variable {represents : σ → ResolvedValue Object → Value → Prop} {pure : PureEnvironment Value}
  {top : PlanChildren} {root : Value}

theorem Keeps.refl (state : σ) : Keeps represents state state := fun _ _ => id

theorem Keeps.trans {first second third : σ} (before : Keeps represents first second)
    (after : Keeps represents second third) : Keeps represents first third :=
  fun value plain holds => after value plain (before value plain holds)

theorem Adds.refl (progress : Progress σ Object) : Adds represents progress progress [] [] where
  keeps := .refl _
  queue := (List.append_nil _).symm
  errors := (List.append_nil _).symm

theorem Adds.trans {first second third : Progress σ Object} {tasks others : List (Task Object)}
    {errors more : List FieldError} (before : Adds represents first second tasks errors)
    (after : Adds represents second third others more) :
    Adds represents first third (tasks ++ others) (errors ++ more) where
  keeps := before.keeps.trans after.keeps
  queue := by rw [after.queue, before.queue, List.append_assoc]
  errors := by rw [after.errors, before.errors, List.append_assoc]

theorem Task.IsPending.later {task : Task Object} {state later : σ} {plain : Value}
    (pending : task.IsPending represents pure top root state plain)
    (keeps : Keeps represents state later) :
    task.IsPending represents pure top root later plain where
  represented := keeps _ _ pending.represented
  place := pending.place
  keyed := pending.keyed

theorem TasksWithin.nil (state : σ) (limit : Nat) (met : FieldError → Prop) :
    TasksWithin represents pure top root ([] : List (Task Object)) state limit met := by
  intro task member
  cases member

theorem TasksWithin.later {tasks : List (Task Object)} {state later : σ} {limit more : Nat}
    {met meets : FieldError → Prop}
    (within : TasksWithin represents pure top root tasks state limit met)
    (keeps : Keeps represents state later) (less : limit ≤ more)
    (implies : ∀ error, met error → meets error) :
    TasksWithin represents pure top root tasks later more meets := by
  intro task member
  rcases within task member with ⟨⟨plain, pending⟩, bound, errors⟩
  exact ⟨⟨plain, pending.later keeps⟩, Nat.le_trans bound less,
    fun error reported => implies error (errors error reported)⟩

theorem TasksWithin.append {tasks others : List (Task Object)} {state : σ} {limit : Nat}
    {met : FieldError → Prop}
    (first : TasksWithin represents pure top root tasks state limit met)
    (second : TasksWithin represents pure top root others state limit met) :
    TasksWithin represents pure top root (tasks ++ others) state limit met := by
  intro task member
  exact (List.mem_append.mp member).elim (first task) (second task)

theorem awaits_append_left {tasks : List (Task Object)} (others : List (Task Object))
    {path : ResponsePath} (awaited : awaits tasks path) : awaits (tasks ++ others) path := by
  rcases awaited with ⟨task, member, same⟩
  exact ⟨task, List.mem_append_left _ member, same⟩

theorem awaits_append_right (tasks : List (Task Object)) {others : List (Task Object)}
    {path : ResponsePath} (awaited : awaits others path) : awaits (tasks ++ others) path := by
  rcases awaited with ⟨task, member, same⟩
  exact ⟨task, List.mem_append_right _ member, same⟩

/-! ## Steps -/

theorem Advances.result {path : ResponsePath} {limit : Nat} {before : Progress σ Object}
    {tree : ResponseTree}
    (agrees : ∀ nullable, Agrees (pure.report top root) True (awaits ([] : List (Task Object)))
      nullable tree path) :
    Advances represents pure top root path limit before (some tree, before) := by
  refine ⟨[], [], .refl _, .nil _ _ _, List.nil_subset _, fun nullable => ?_⟩
  exact (agrees nullable).mono (fun _ => trivial) fun _ => id

theorem Advances.fail {node : PlanNode} {path : ResponsePath} {limit : Nat}
    {before : Progress σ Object} {error : ExecutionError}
    (reports : pure.report top root path = .fail node path error) :
    Advances represents pure top root path limit before (Run.fail node path error before) := by
  refine ⟨[], [error.recorded node path], ⟨.refl _, (List.append_nil _).symm, rfl⟩, .nil _ _ _, ?_,
    fun nullable => ⟨?_, List.cons_ne_nil _ _⟩⟩
  · rw [reports]
    exact List.Subset.refl _
  · rw [reports]
    rfl

theorem Advances.keeps {path : ResponsePath} {limit : Nat} {before : Progress σ Object}
    {step : Option ResponseTree × Progress σ Object}
    (advances : Advances represents pure top root path limit before step) :
    Keeps represents before.outside step.2.outside := by
  rcases advances with ⟨tasks, errors, adds, rest⟩
  exact adds.keeps

/-- Asking before a step changes only what represents the values. -/
theorem Advances.after {path : ResponsePath} {limit : Nat} {before : Progress σ Object}
    {outside : σ} {step : Option ResponseTree × Progress σ Object}
    (keeps : Keeps represents before.outside outside)
    (advances : Advances represents pure top root path limit { before with outside } step) :
    Advances represents pure top root path limit before step := by
  rcases advances with ⟨tasks, errors, adds, rest⟩
  exact ⟨tasks, errors, ⟨keeps.trans adds.keeps, adds.queue, adds.errors⟩, rest⟩

theorem AdvanceAll.nil {path : ResponsePath} {limit : Nat} {before : Progress σ Object} :
    AdvanceAll represents pure top root path [] limit before (some [], before) := by
  refine ⟨[], [], .refl _, .nil _ _ _, ?_, .nil⟩
  intro error member
  cases member

/-- A sibling that fails and cannot be null ends the steps. -/
theorem AdvanceAll.stop {path : ResponsePath} {segment : PathSegment} {nullable : Bool}
    {rest : List (PathSegment × Bool)} {limit : Nat} {before : Progress σ Object}
    {first : Option ResponseTree × Progress σ Object}
    (advances : Advances represents pure top root (path ++ [segment]) limit before first)
    (fails : ResponseTree.filled nullable first.1 = none) :
    AdvanceAll represents pure top root path ((segment, nullable) :: rest) limit before
      (none, first.2) := by
  rcases advances with ⟨tasks, errors, adds, within, subset, fits⟩
  have filled := (fits nullable).filled
  rw [fails] at filled
  refine ⟨tasks, errors, adds, within.later (.refl _) (Nat.le_refl _) ?_, ?_, filled.2.2,
    (segment, nullable), List.mem_cons_self, filled.1, filled.2.1⟩
  · exact fun error member => ⟨_, List.mem_cons_self, member⟩
  · exact fun error member => ⟨_, List.mem_cons_self, subset member⟩

theorem AdvanceAll.cons {path : ResponsePath} {segment : PathSegment} {nullable : Bool}
    {rest : List (PathSegment × Bool)} {limit : Nat} {before : Progress σ Object}
    {first : Option ResponseTree × Progress σ Object} {tree : ResponseTree}
    {others : Option (List ResponseTree) × Progress σ Object}
    (advances : Advances represents pure top root (path ++ [segment]) limit before first)
    (makes : ResponseTree.filled nullable first.1 = some tree)
    (later : AdvanceAll represents pure top root path rest limit first.2 others) :
    AdvanceAll represents pure top root path ((segment, nullable) :: rest) limit before
      (others.1.map (tree :: ·), others.2) := by
  rcases advances with ⟨tasks, errors, adds, within, subset, fits⟩
  rcases later with ⟨moreTasks, moreErrors, moreAdds, moreWithin, moreMet, made⟩
  have filled := (fits nullable).filled
  rw [makes] at filled
  have further : ∀ error, MetBelow pure top root path rest error →
      MetBelow pure top root path ((segment, nullable) :: rest) error := by
    rintro error ⟨other, otherMem, reported⟩
    exact ⟨other, List.mem_cons_of_mem _ otherMem, reported⟩
  refine ⟨tasks ++ moreTasks, errors ++ moreErrors, adds.trans moreAdds, ?_, ?_, ?_⟩
  · apply TasksWithin.append
    · exact within.later moreAdds.keeps (Nat.le_refl _) fun error member =>
        ⟨_, List.mem_cons_self, member⟩
    · exact moreWithin.later (.refl _) (Nat.le_refl _) further
  · intro error member
    rcases List.mem_append.mp member with member | member
    · exact ⟨_, List.mem_cons_self, subset member⟩
    · exact further error (moreMet error member)
  · rcases others with ⟨made?, after⟩
    cases made? with
    | none =>
        rcases made with ⟨recorded, other, otherMem, fails⟩
        exact ⟨fun silent => recorded (List.append_eq_nil_iff.mp silent).2, other,
          List.mem_cons_of_mem _ otherMem, fails⟩
    | some trees =>
        refine .cons ?_ (made.imp fun other tree agrees => ?_)
        · exact filled.mono (fun silent => (List.append_eq_nil_iff.mp silent).1)
            fun _ => awaits_append_left moreTasks
        · exact agrees.mono (fun silent => (List.append_eq_nil_iff.mp silent).2)
            fun _ => awaits_append_right tasks

/-! ## Lists and objects -/

theorem AdvanceAll.list {path : ResponsePath} {nullable : Bool} {count limit : Nat}
    {before : Progress σ Object} {step : Option (List ResponseTree) × Progress σ Object}
    (advances : AdvanceAll represents pure top root path
      ((List.range' 0 count).map fun position => (.index position, nullable)) limit before step)
    (reports : pure.report top root path =
      (Evaluation.itemsAt (pure.report top root) nullable path 0 count).map .array) :
    Advances represents pure top root path limit before
      (step.1.map (.list nullable), step.2) := by
  rcases advances with ⟨tasks, errors, adds, within, met, made⟩
  have reported : ∀ error, MetBelow pure top root path
      ((List.range' 0 count).map fun position => (.index position, nullable)) error →
        error ∈ (pure.report top root path).errors := by
    rintro error ⟨sibling, siblingMem, inside⟩
    rcases List.mem_map.mp siblingMem with ⟨position, bound, rfl⟩
    rw [reports]
    apply Evaluation.mem_itemsAt_errors.mpr
    rw [List.mem_range'_1] at bound
    exact ⟨position, by omega, by rwa [Nat.zero_add]⟩
  refine ⟨tasks, errors, adds, within.later (.refl _) (Nat.le_refl _) reported,
    fun error member => reported error (met error member), fun outer => ?_⟩
  rcases step with ⟨made?, after⟩
  cases made? with
  | none =>
      rcases made with ⟨recorded, sibling, siblingMem, strict, fails⟩
      rcases List.mem_map.mp siblingMem with ⟨position, bound, rfl⟩
      rw [List.mem_range'_1] at bound
      refine ⟨?_, recorded⟩
      simp only at strict fails
      have inside : Evaluation.filled nullable
          (pure.report top root (path ++ [.index (0 + position)])).result = none := by
        rw [Nat.zero_add, fails, strict]
        rfl
      rw [reports, Evaluation.map, Evaluation.itemsAt_result_eq_none (by omega) inside]
      rfl
  | some trees =>
      have length := made.length_eq
      rw [List.length_map, List.length_range'] at length
      refine .list (by rw [← length]; exact reports) ?_
      intro position tree found
      have bound := (List.getElem?_eq_some_iff.mp found).1
      have agrees := (List.forall₂_iff_get.mp made).2 position (by simpa [length]) bound
      rw [(List.getElem?_eq_some_iff.mp found).2.symm]
      simpa using agrees

theorem AdvanceAll.object {path : ResponsePath} {heads : List (String × Bool)} {limit : Nat}
    {before : Progress σ Object}
    {step : Option (List (String × Bool × ResponseTree)) × Progress σ Object}
    (advances : AdvanceAll represents pure top root path
      (heads.map fun head => (.field head.1, head.2)) limit before
      (step.1.map (List.map fun field => field.2.2), step.2))
    (named : ∀ fields, step.1 = some fields →
      fields.map (fun field => (field.1, field.2.1)) = heads)
    (distinct : (heads.map Prod.fst).Nodup)
    (reports : pure.report top root path =
      (Evaluation.fieldsAt (pure.report top root) path heads).map .object) :
    Advances represents pure top root path limit before (step.1.map .object, step.2) := by
  rcases advances with ⟨tasks, errors, adds, within, met, made⟩
  have reported : ∀ error, MetBelow pure top root path
      (heads.map fun head => (.field head.1, head.2)) error →
        error ∈ (pure.report top root path).errors := by
    rintro error ⟨sibling, siblingMem, inside⟩
    rcases List.mem_map.mp siblingMem with ⟨head, headMem, rfl⟩
    rw [reports]
    exact Evaluation.mem_fieldsAt_errors.mpr ⟨head, headMem, inside⟩
  refine ⟨tasks, errors, adds, within.later (.refl _) (Nat.le_refl _) reported,
    fun error member => reported error (met error member), fun outer => ?_⟩
  rcases step with ⟨made?, after⟩
  cases made? with
  | none =>
      rcases made with ⟨recorded, sibling, siblingMem, strict, fails⟩
      rcases List.mem_map.mp siblingMem with ⟨head, headMem, rfl⟩
      refine ⟨?_, recorded⟩
      rw [reports, Evaluation.map, Evaluation.fieldsAt_result_eq_none headMem]
      · rfl
      · rw [fails]
        simp only at strict
        rw [strict]
        rfl
  | some fields =>
      have names := named fields rfl
      subst names
      refine .object ?_ reports ?_
      · simpa [OrderedMap.keys, Function.comp_def] using distinct
      · intro key inner value member
        simp only [Option.map_some, List.map_map, List.forall₂_map_left_iff,
          List.forall₂_map_right_iff, Function.comp_apply] at made
        rcases List.getElem_of_mem member with ⟨position, bound, found⟩
        have agrees := (List.forall₂_iff_get.mp made).2 position bound bound
        simp only [List.get_eq_getElem, found] at agrees
        exact agrees

end

end GraphQL

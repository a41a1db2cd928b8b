import GraphQL.Proofs.Execution.Shaping

/-!
# Rounds of an execution

At every moment of an execution its data have the form of the fields of the root, its marks lie
apart, and its tasks are due to what happened since the last round began. A round begins with all
that can be resolved without forcing, forces the tasks whose places are live, and finishes them. What
is forced is lazy no more, so tasks become lower from round to round until none are left.
-/

namespace GraphQL

variable {σ Object : Type}

/-- The resolving of a field, if that is what happens. -/
def Occurrence.call? : Occurrence Object → Option (Call Object)
  | resolved call => some call
  | _ => none

/-- What happens concerns fields at or below a path. -/
def Occurrence.IsBelow (base : ResponsePath) : Occurrence Object → Prop
  | resolved call => base <+: call.path
  | opened _ waiting => ∀ task ∈ waiting, base <+: task.path
  | forced task _ => base <+: task.path

/-- The forcing of a task, with its answer. -/
def Occurrence.ofAnswer
    (entry : Task Object × Except ExecutionError (ResolvedValue Object)) : Occurrence Object :=
  .forced entry.1 entry.2

/-- What an execution has come to, with the tasks that are not finished. -/
def Progress.yield (progress : Progress (Record σ Object) Object) (tasks : List (Task Object)) :
    Yield Object where
  calls := progress.outside.trace.filterMap Occurrence.call?
  errors := progress.errors
  tasks := tasks

/-- A moment of an execution of some fields of the root: the data have their form, the marks lie
apart, and the tasks in the queue lie below a path and are due to what happened since some time.
Some more tasks wait to be finished. -/
structure Moment (env : Environment σ Object) (children : List PlanNode) (base : ResponsePath)
    (origin : List (Occurrence Object)) (limit : Nat) (waiting : List (Task Object))
    (tree : ResponseTree) (progress : Progress (Record σ Object) Object) : Prop where
  root : (env.evidence (waiting ++ progress.queue) progress).HasRoot children tree
  scattered : ∀ mark,
    Scattered mark [] (some tree) ((progress.yield (waiting ++ progress.queue)).paths mark)
  placed : (progress.yield []).IsPlaced progress.outside.trace
  queue : ∀ task ∈ progress.queue,
    task.IsDue env origin progress.outside.trace limit ∧ base <+: task.path
  recent : origin ⊆ progress.outside.trace

section

variable {env : Environment σ Object} {children : List PlanNode} {base : ResponsePath}
  {origin : List (Occurrence Object)} {limit : Nat} {waiting : List (Task Object)}
  {tree : ResponseTree} {progress after : Progress (Record σ Object) Object}

theorem filterMap_call? (calls : List (Call Object)) :
    (calls.map Occurrence.resolved).filterMap Occurrence.call? = calls := by
  induction calls with
  | nil => rfl
  | cons call rest ih => simp [Occurrence.call?, ih]

/-- The paths of all marks after a step. -/
theorem Yield.Leads.paths {yield : Yield Object} (leads : yield.Leads progress after)
    (tasks : List (Task Object)) (mark : Mark) :
    (after.yield (tasks ++ yield.tasks)).paths mark =
      (progress.yield tasks).paths mark ++ yield.paths mark := by
  rw [← paths_append]
  congr 1
  simp only [Progress.yield, leads.trace, leads.errors, List.filterMap_append, filterMap_call?]
  rfl

theorem Yield.Leads.isPlaced {yield : Yield Object} (leads : yield.Leads progress after)
    (placed : (progress.yield []).IsPlaced progress.outside.trace)
    (new : yield.IsPlaced after.outside.trace) :
    (after.yield []).IsPlaced after.outside.trace := by
  have both := (placed.mono leads.subset).append new
  constructor
  · intro call member
    apply both.calls
    rw [Progress.yield, leads.trace, List.filterMap_append, filterMap_call?] at member
    exact member
  · intro error member
    apply both.errors
    rw [Progress.yield, leads.errors] at member
    exact member

/-- No task but the first one that waits has its path. -/
theorem Moment.not_mem_paths {task : Task Object}
    (moment : Moment env children base origin limit (task :: waiting) tree progress) :
    task.path ∉ (waiting ++ progress.queue).map Task.path :=
  (List.nodup_cons.mp (moment.scattered .task).distinct).1

/-- What is made for a task keeps the marks apart. -/
theorem Moment.scattered_place {task : Task Object} {made : Option ResponseTree}
    {yield : Yield Object}
    (moment : Moment env children base origin limit (task :: waiting) tree progress)
    (isWaiting : tree.sight task.path = .waiting)
    (new : ∀ mark, Scattered mark task.path made (yield.paths mark))
    (below : task.path ∉ yield.paths .call) (mark : Mark) :
    Scattered mark [] (tree.place task.path made)
      ((progress.yield (waiting ++ progress.queue)).paths mark ++ yield.paths mark) := by
  have fewer : ((progress.yield (waiting ++ progress.queue)).paths mark).Sublist
      ((progress.yield (task :: waiting ++ progress.queue)).paths mark) := by
    cases mark with
    | task => exact List.sublist_cons_self _ _
    | call => exact List.Sublist.refl _
    | error => exact List.Sublist.refl _
  refine ((moment.scattered mark).sublist fewer).place isWaiting (new mark) ?_
  cases mark with
  | call => exact .inr ⟨rfl, below⟩
  | task => exact .inl moment.not_mem_paths
  | error =>
      -- Errors lie under nulls, and this place waits.
      left
      intro member
      rcases (moment.scattered .error).below _ member with ⟨path, same, isNulled⟩
      rw [List.nil_append] at same
      subst same
      have isShown : tree.sight task.path = .nulled := isNulled
      rw [isWaiting] at isShown
      cases isShown

/-- Placing what was made for a task whose place waits. -/
theorem Moment.place {task : Task Object} {made : Option ResponseTree}
    {earlier : List (Occurrence Object)}
    (moment : Moment env children base origin limit (task :: waiting) tree progress)
    (isWaiting : tree.sight task.path = .waiting) (isBelow : base <+: task.path)
    (completes : Completes env earlier limit task.path
      (fun known made => known.Fits task.node task.type task.path made) progress (made, after))
    (since : earlier ⊆ origin) :
    ∃ calls : List (Call Object),
      after.outside.trace = progress.outside.trace ++ calls.map .resolved ∧
      (∀ call ∈ calls, base <+: call.path) ∧
      Moment env children base (origin ++ calls.map .resolved) limit waiting
        ((tree.place task.path made).getD .null) after := by
  rcases completes with ⟨yield, makes, below⟩
  have leads := makes.leads
  have queue : waiting ++ after.queue = (waiting ++ progress.queue) ++ yield.tasks := by
    rw [leads.queue, List.append_assoc]
  have within : ∀ mark, ∀ path ∈ yield.paths mark, base <+: path := fun mark path member =>
    isBelow.trans ((makes.scattered mark).isPrefix member)
  refine ⟨yield.calls, leads.trace, fun call member => within .call _ (List.mem_map_of_mem member),
    ⟨?_, ?_, ?_, ?_, ?_⟩⟩
  · refine moment.root.place isWaiting leads.extends ?_ ?_
    · intro other member elsewhere
      rcases List.mem_cons.mp member with rfl | member
      · exact absurd (List.prefix_refl _) elsewhere
      · change other ∈ waiting ++ after.queue
        rw [queue]
        exact List.mem_append_left _ member
    · intro other member same
      rcases List.mem_cons.mp member with rfl | member
      · refine makes.fits.mono (Yield.Leads.refl after).extends ?_
        change yield.tasks ⊆ waiting ++ after.queue
        rw [queue]
        exact List.subset_append_right _ _
      · exact absurd (same ▸ List.mem_map_of_mem member) moment.not_mem_paths
  · intro mark
    rw [queue, leads.paths]
    exact (moment.scattered_place isWaiting makes.scattered below mark).getD
  · exact leads.isPlaced moment.placed makes.sound.placed
  · intro other member
    rw [leads.queue] at member
    rcases List.mem_append.mp member with member | member
    · rcases moment.queue other member with ⟨due, isBelow⟩
      exact ⟨due.mono (List.subset_append_left _ _) leads.subset, isBelow⟩
    · refine ⟨(makes.sound.tasks other member).mono ?_ (List.Subset.refl _),
        within .task _ (List.mem_map_of_mem member)⟩
      exact List.append_subset.mpr ⟨List.Subset.trans since (List.subset_append_left _ _),
        List.subset_append_right _ _⟩
  · rw [leads.trace]
    exact List.append_subset.mpr ⟨List.Subset.trans moment.recent (List.subset_append_left _ _),
      List.subset_append_right _ _⟩

/-- A task that was forced and has still to be finished. -/
structure Task.IsForcedWith (env : Environment σ Object) (base : ResponsePath)
    (origin trace : List (Occurrence Object)) (limit : Nat) (task : Task Object)
    (answer : Except ExecutionError (ResolvedValue Object)) : Prop where
  occurs : .forced task answer ∈ origin
  eager : ∀ value, answer = .ok value → env.isLazy value = false
  isBelow : base <+: task.path
  position : Position trace task.path task.node task.type
  keyed : ∀ typed ∈ task.node.typedChildren, PlanChildren.IsKeyed typed.2
  height : task.height ≤ limit + 1

theorem Task.IsForcedWith.mono {task : Task Object}
    {answer : Except ExecutionError (ResolvedValue Object)}
    {trace more later : List (Occurrence Object)}
    (forced : task.IsForcedWith env base origin trace limit answer) (earlier : origin ⊆ more)
    (since : trace ⊆ later) : task.IsForcedWith env base more later limit answer where
  occurs := earlier forced.occurs
  eager := forced.eager
  isBelow := forced.isBelow
  position := forced.position.mono since
  keyed := forced.keyed
  height := forced.height

/-- Completing a forced value. -/
theorem Task.IsForcedWith.completes {task : Task Object}
    {answer : Except ExecutionError (ResolvedValue Object)}
    (forced : task.IsForcedWith env base origin progress.outside.trace limit answer)
    (recent : origin ⊆ progress.outside.trace) :
    Completes env [.forced task answer] limit task.path
      (fun known made => known.Fits task.node task.type task.path made) progress
      ((match answer with
        | .ok value => env.recorded.complete task.node task.type value task.path
        | .error error => Run.fail task.node task.path error) progress) := by
  have bound := forced.height
  rw [Task.height] at bound
  cases answer with
  | error error => exact .fail forced.position.isReached fun known fails => fails
  | ok value =>
      have inside : FieldsComplete env task.node.typedChildren
          (env.recorded.executeTyped task.node.typedChildren) limit :=
        executeTyped_completes_of_keyed forced.keyed (by omega)
      have occurs : [Occurrence.forced task (.ok value)] ⊆ progress.outside.trace :=
        List.cons_subset.mpr ⟨recent forced.occurs, List.nil_subset _⟩
      exact completeWith_completes forced.keyed inside _ _ _ _ _ (by omega)
        (forced.eager value rfl) rfl (fun _ => rfl) (.forced (List.mem_singleton_self _)) occurs
        forced.position

/-- Finishing a task puts what it makes at its place, unless the place is gone. -/
theorem Moment.finish {task : Task Object} {answer : Except ExecutionError (ResolvedValue Object)}
    (moment : Moment env children base origin limit (task :: waiting) tree progress)
    (forced : task.IsForcedWith env base origin progress.outside.trace limit answer) :
    ∃ calls : List (Call Object),
      (env.recorded.finish tree task answer progress).2.outside.trace =
        progress.outside.trace ++ calls.map .resolved ∧
      (∀ call ∈ calls, base <+: call.path) ∧
      Moment env children base (origin ++ calls.map .resolved) limit waiting
        (env.recorded.finish tree task answer progress).1
        (env.recorded.finish tree task answer progress).2 := by
  unfold Environment.finish
  rcases (moment.scattered .task).below task.path (List.mem_cons_self) with ⟨path, same, allowed⟩
  rw [List.nil_append] at same
  subst same
  by_cases isLive : tree.isLive task.path = true
  · rw [if_pos isLive]
    have isWaiting : tree.sight task.path = .waiting := by
      rcases allowed with isNulled | isWaiting
      · have isNulled : tree.sight task.path = .nulled := isNulled
        rw [ResponseTree.isLive_iff, isNulled] at isLive
        simp at isLive
      · exact isWaiting
    have completes := forced.completes moment.recent
    have occurs : [Occurrence.forced task answer] ⊆ origin :=
      List.cons_subset.mpr ⟨forced.occurs, List.nil_subset _⟩
    cases answer with
    | ok value => exact moment.place isWaiting forced.isBelow completes occurs
    | error error => exact moment.place isWaiting forced.isBelow completes occurs
  · -- The place is under a null by now, so nothing in the tree waits for the task.
    rw [if_neg isLive]
    refine ⟨[], (List.append_nil _).symm, by simp, ?_⟩
    rw [List.map_nil, List.append_nil]
    refine ⟨?_, ?_, moment.placed, moment.queue, moment.recent⟩
    · refine moment.root.mono (Yield.Leads.refl progress).extends ?_
      intro other member isWaiting
      rcases List.mem_cons.mp member with rfl | member
      · exact absurd ((tree.isLive_iff _).mpr (.inl isWaiting)) isLive
      · exact member
    · intro mark
      refine (moment.scattered mark).sublist ?_
      cases mark with
      | task => exact List.sublist_cons_self _ _
      | call => exact List.Sublist.refl _
      | error => exact List.Sublist.refl _

theorem Moment.finishAll
    {answers : List (Task Object × Except ExecutionError (ResolvedValue Object))}
    (moment : Moment env children base origin limit (answers.map Prod.fst) tree progress)
    (forced : ∀ entry ∈ answers,
      entry.1.IsForcedWith env base origin progress.outside.trace limit entry.2) :
    ∃ calls : List (Call Object),
      (env.recorded.finishAll tree answers progress).2.outside.trace =
        progress.outside.trace ++ calls.map .resolved ∧
      (∀ call ∈ calls, base <+: call.path) ∧
      Moment env children base (origin ++ calls.map .resolved) limit []
        (env.recorded.finishAll tree answers progress).1
        (env.recorded.finishAll tree answers progress).2 := by
  induction answers generalizing origin tree progress with
  | nil =>
      refine ⟨[], (List.append_nil _).symm, by simp, ?_⟩
      rw [List.map_nil, List.append_nil]
      exact moment
  | cons entry rest ih =>
      rcases moment.finish (forced entry List.mem_cons_self) with ⟨calls, trace, below, next⟩
      have since : progress.outside.trace ⊆
          (env.recorded.finish tree entry.1 entry.2 progress).2.outside.trace := by
        rw [trace]
        exact List.subset_append_left _ _
      rcases ih next fun other member =>
          (forced other (List.mem_cons_of_mem _ member)).mono (List.subset_append_left _ _) since
        with ⟨more, further, moreBelow, last⟩
      refine ⟨calls ++ more, ?_, ?_, ?_⟩
      · rw [List.map_append, ← List.append_assoc, ← trace]
        exact further
      · intro call member
        exact (List.mem_append.mp member).elim (below call) (moreBelow call)
      · rw [List.map_append, ← List.append_assoc]
        exact last

/-! ## Rounds -/

/-- Forcing writes down its answers, none of which is lazy. -/
theorem recordedForceAll_eq (settles : env.Settles) (tasks : List (Task Object))
    (progress : Progress (Record σ Object) Object) :
    ∃ answers outside, env.recordedForceAll tasks progress =
        (answers, { progress with
          outside := { outside, trace := progress.outside.trace ++ answers.map .ofAnswer } }) ∧
      answers.map Prod.fst = tasks ∧
      ∀ entry ∈ answers, ∀ value, entry.2 = .ok value → env.isLazy value = false := by
  induction tasks generalizing progress with
  | nil =>
      refine ⟨[], progress.outside.outside, ?_, rfl, by simp⟩
      rw [List.map_nil, List.append_nil]
      rfl
  | cons task rest ih =>
      rcases asked : env.force task.value progress.outside.outside with ⟨answer, outside⟩
      rcases ih { progress with outside :=
          { outside, trace := progress.outside.trace ++ [.forced task answer] } } with
        ⟨answers, last, forced, names, eager⟩
      refine ⟨(task, answer) :: answers, last, ?_, by rw [List.map_cons, names], ?_⟩
      · simp only [Environment.recordedForceAll, bind, StateT.bind, Run.ask, Run.log,
          Environment.recorded, Record.lift, asked, forced]
        rw [List.map_cons, Occurrence.ofAnswer, List.append_assoc]
        rfl
      · intro entry member value isOk
        rcases List.mem_cons.mp member with rfl | member
        · apply settles task.value progress.outside.outside value
          rw [asked]
          exact isOk
        · exact eager entry member value isOk

theorem filterMap_call?_ofAnswer
    (answers : List (Task Object × Except ExecutionError (ResolvedValue Object))) :
    (answers.map Occurrence.ofAnswer).filterMap Occurrence.call? = [] := by
  induction answers with
  | nil => rfl
  | cons entry rest ih => rw [List.map_cons, List.filterMap_cons_none rfl, ih]

/-- The state of an execution in a round, after its forcings. -/
def Progress.forced (progress : Progress (Record σ Object) Object) (tree : ResponseTree)
    (outside : σ) (answers : List (Task Object × Except ExecutionError (ResolvedValue Object))) :
    Progress (Record σ Object) Object where
  outside :=
    { outside
      trace := progress.outside.trace ++ .opened tree progress.queue :: answers.map .ofAnswer }
  errors := progress.errors

section

variable {answers : List (Task Object × Except ExecutionError (ResolvedValue Object))} {outside : σ}

theorem subset_trace_forced :
    progress.outside.trace ⊆ (progress.forced tree outside answers).outside.trace :=
  List.subset_append_left _ _

theorem filterMap_call?_forced :
    (progress.forced tree outside answers).outside.trace.filterMap Occurrence.call? =
      progress.outside.trace.filterMap Occurrence.call? := by
  rw [Progress.forced, List.filterMap_append, List.filterMap_cons_none rfl,
    filterMap_call?_ofAnswer, List.append_nil]

/-- A round forces those of the tasks that wait whose places are live, and finishes them. -/
theorem recordedRound_eq (settles : env.Settles) (tree : ResponseTree)
    (progress : Progress (Record σ Object) Object) :
    ∃ answers outside, env.recordedRound tree progress =
        env.recorded.finishAll tree answers (progress.forced tree outside answers) ∧
      answers.map Prod.fst = progress.queue.filter (fun task => tree.isLive task.path) ∧
      ∀ entry ∈ answers, ∀ value, entry.2 = .ok value → env.isLazy value = false := by
  let opening : Progress (Record σ Object) Object :=
    { progress with
      queue := []
      outside := { progress.outside with
        trace := progress.outside.trace ++ [.opened tree progress.queue] } }
  rcases recordedForceAll_eq settles (progress.queue.filter fun task => tree.isLive task.path)
    opening with ⟨answers, outside, forced, names, eager⟩
  refine ⟨answers, outside, ?_, names, eager⟩
  change env.recorded.finishAll tree (env.recordedForceAll _ opening).1
    (env.recordedForceAll _ opening).2 = _
  rw [forced, Progress.forced]
  simp only [opening, List.append_assoc, List.singleton_append]

/-- After the forcings the forced tasks are those to be finished. -/
theorem Moment.forced (moment : Moment env children base origin (limit + 1) [] tree progress)
    (names : answers.map Prod.fst = progress.queue.filter fun task => tree.isLive task.path) :
    Moment env children base (answers.map .ofAnswer) limit (answers.map Prod.fst) tree
      (progress.forced tree outside answers) where
  root := by
    have since : progress.outside.trace ⊆ (progress.forced tree outside answers).outside.trace :=
      subset_trace_forced
    refine moment.root.mono ⟨rfl, rfl, since, List.Subset.refl _⟩ ?_
    intro task member isWaiting
    change task ∈ answers.map Prod.fst ++ []
    rw [List.append_nil, names]
    exact List.mem_filter.mpr ⟨member, (tree.isLive_iff _).mpr (.inl isWaiting)⟩
  scattered := by
    intro mark
    refine (moment.scattered mark).sublist ?_
    cases mark with
    | task =>
        change ((answers.map Prod.fst ++ []).map Task.path).Sublist (progress.queue.map Task.path)
        rw [List.append_nil, names]
        exact List.filter_sublist.map _
    | call =>
        simp only [Yield.paths, Progress.yield, filterMap_call?_forced]
        exact List.Sublist.refl _
    | error => exact List.Sublist.refl _
  placed := by
    have placed := moment.placed.mono (@subset_trace_forced _ _ tree progress answers outside)
    refine ⟨?_, placed.errors⟩
    intro call member
    rw [Progress.yield, filterMap_call?_forced] at member
    exact placed.calls call member
  queue := by
    intro task member
    cases member
  recent := List.Subset.trans (List.subset_cons_self _ _) (List.subset_append_right _ _)

theorem Moment.isForcedWith
    (moment : Moment env children base origin (limit + 1) [] tree progress)
    (names : answers.map Prod.fst = progress.queue.filter fun task => tree.isLive task.path)
    (eager : ∀ entry ∈ answers, ∀ value, entry.2 = .ok value → env.isLazy value = false)
    {entry : Task Object × Except ExecutionError (ResolvedValue Object)} (member : entry ∈ answers) :
    entry.1.IsForcedWith env base (answers.map .ofAnswer)
      (progress.forced tree outside answers).outside.trace limit entry.2 := by
  have isTask : entry.1 ∈ progress.queue.filter fun task => tree.isLive task.path :=
    names ▸ List.mem_map_of_mem member
  rcases moment.queue entry.1 (List.mem_of_mem_filter isTask) with ⟨due, isBelow⟩
  exact ⟨List.mem_map_of_mem member, eager entry member, isBelow,
    due.position.mono subset_trace_forced, due.keyed, due.height⟩

end

/-- What happens in a round concerns what its tasks wait for. -/
theorem Moment.isBelow_round {calls : List (Call Object)}
    {answers : List (Task Object × Except ExecutionError (ResolvedValue Object))}
    (moment : Moment env children base origin limit [] tree progress)
    (names : answers.map Prod.fst = progress.queue.filter fun task => tree.isLive task.path)
    (below : ∀ call ∈ calls, base <+: call.path) :
    ∀ occurrence : Occurrence Object, occurrence ∈
        .opened tree progress.queue :: (answers.map .ofAnswer ++ calls.map .resolved) →
      occurrence.IsBelow base := by
  intro occurrence member
  rcases List.mem_cons.mp member with rfl | member
  · exact fun task isTask => (moment.queue task isTask).2
  rcases List.mem_append.mp member with member | member
  · rcases List.mem_map.mp member with ⟨entry, isAnswer, rfl⟩
    have isTask : entry.1 ∈ progress.queue.filter fun task => tree.isLive task.path :=
      names ▸ List.mem_map_of_mem isAnswer
    exact (moment.queue entry.1 (List.mem_of_mem_filter isTask)).2
  · rcases List.mem_map.mp member with ⟨call, isCall, rfl⟩
    exact below call isCall

/-- A round is written down with what it begins with, then its forcings, then the calls that finish
its tasks; then only lower tasks are left. -/
theorem Moment.round (settles : env.Settles)
    (moment : Moment env children base origin (limit + 1) [] tree progress) :
    ∃ (answers : List (Task Object × Except ExecutionError (ResolvedValue Object)))
      (calls : List (Call Object)),
      answers.map Prod.fst = progress.queue.filter (fun task => tree.isLive task.path) ∧
      (env.recordedRound tree progress).2.outside.trace = progress.outside.trace ++
        .opened tree progress.queue :: (answers.map .ofAnswer ++ calls.map .resolved) ∧
      (∀ occurrence : Occurrence Object, occurrence ∈
          .opened tree progress.queue :: (answers.map .ofAnswer ++ calls.map .resolved) →
        occurrence.IsBelow base) ∧
      Moment env children base (answers.map .ofAnswer ++ calls.map .resolved) limit []
        (env.recordedRound tree progress).1 (env.recordedRound tree progress).2 := by
  rcases recordedRound_eq settles tree progress with ⟨answers, outside, rounded, names, eager⟩
  have ready : Moment env children base (answers.map .ofAnswer) limit (answers.map Prod.fst) tree
      (progress.forced tree outside answers) := moment.forced names
  rcases ready.finishAll fun entry member => moment.isForcedWith names eager member with
    ⟨calls, trace, below, next⟩
  rw [rounded]
  refine ⟨answers, calls, names, ?_, moment.isBelow_round names below, next⟩
  rw [trace, Progress.forced, List.append_assoc]
  rfl

/-- A pause: the tasks that wait lie apart, their values are lazy and came to stand at their places
since the last round began, and everything that needs no forcing is resolved. -/
structure Pause (env : Environment σ Object) (children : List PlanNode)
    (done recent : List (Occurrence Object)) (tree : ResponseTree)
    (waiting : List (Task Object)) : Prop where
  distinct : (waiting.map Task.path).Nodup
  isLazy : ∀ task ∈ waiting, env.isLazy task.value = true
  produced : ∀ task ∈ waiting, Produced recent task.path task.value
  places : ∀ task ∈ waiting, tree.sight task.path = .nulled ∨ tree.sight task.path = .waiting
  resolved : ∃ errors, Evidence.HasRoot
    { schema := env.schema, bindings := env.bindings, trace := done, errors, tasks := waiting }
    children tree

/-- A trace is in rounds if every round begins after calls only, and then forces those of the tasks
that wait whose places are live, until no task waits. `done` is what happened before, `recent` what
of it happened since the last round began. -/
inductive InRounds (env : Environment σ Object) (children : List PlanNode) :
    List (Occurrence Object) → List (Occurrence Object) → List (Occurrence Object) → Prop where
  | last {done recent : List (Occurrence Object)} {calls : List (Call Object)} {tree : ResponseTree}
      (pause : Pause env children (done ++ calls.map .resolved) (recent ++ calls.map .resolved) tree
        []) :
      InRounds env children done recent (calls.map .resolved)
  | round {done recent rest : List (Occurrence Object)} {calls : List (Call Object)}
      {tree : ResponseTree} {waiting : List (Task Object)}
      {answers : List (Task Object × Except ExecutionError (ResolvedValue Object))}
      (pause : Pause env children (done ++ calls.map .resolved) (recent ++ calls.map .resolved) tree
        waiting)
      (forces : answers.map Prod.fst = waiting.filter fun task => tree.isLive task.path)
      (further : InRounds env children
        (done ++ calls.map .resolved ++ .opened tree waiting :: answers.map .ofAnswer)
        (answers.map .ofAnswer) rest) :
      InRounds env children done recent
        (calls.map .resolved ++ .opened tree waiting :: (answers.map .ofAnswer ++ rest))

theorem Moment.pause (moment : Moment env children base origin limit [] tree progress) :
    Pause env children progress.outside.trace origin tree progress.queue where
  distinct := (moment.scattered .task).distinct
  isLazy task member := (moment.queue task member).1.isLazy
  produced task member := (moment.queue task member).1.produced
  places := by
    intro task member
    rcases (moment.scattered .task).below task.path (List.mem_map_of_mem member) with
      ⟨rest, same, allowed⟩
    rw [List.nil_append] at same
    rw [same]
    exact allowed
  resolved := ⟨progress.errors, moment.root⟩

/-- Settling does rounds until nothing waits. -/
theorem Moment.settle (settles : env.Settles) {done recent : List (Occurrence Object)}
    {calls : List (Call Object)} {rounds : Nat}
    (moment : Moment env children base (recent ++ calls.map .resolved) rounds [] tree progress)
    (trace : progress.outside.trace = done ++ calls.map .resolved) :
    ∃ rest, (env.recordedSettle rounds tree progress).2.outside.trace =
        progress.outside.trace ++ rest ∧
      (∀ occurrence ∈ rest, occurrence.IsBelow base) ∧
      InRounds env children done recent (calls.map .resolved ++ rest) ∧
      (env.recordedSettle rounds tree progress).2.queue = [] ∧
      ∃ last, Moment env children base last 0 []
        (env.recordedSettle rounds tree progress).1
        (env.recordedSettle rounds tree progress).2 := by
  induction rounds generalizing tree progress done recent calls with
  | zero =>
      have empty : progress.queue = [] := by
        rw [List.eq_nil_iff_forall_not_mem]
        intro task member
        have low := (moment.queue task member).1.height
        rw [Task.height] at low
        omega
      refine ⟨[], (List.append_nil _).symm, by simp, ?_, empty, _, moment⟩
      rw [List.append_nil]
      exact .last (trace ▸ empty ▸ moment.pause)
  | succ rounds ih =>
      rw [Environment.recordedSettle_succ]
      by_cases isEmpty : progress.queue.isEmpty = true
      · rw [if_pos isEmpty]
        have empty := List.isEmpty_iff.mp isEmpty
        refine ⟨[], (List.append_nil _).symm, by simp, ?_, empty, _, moment.root, moment.scattered,
          moment.placed, by simp [empty], moment.recent⟩
        rw [List.append_nil]
        exact .last (trace ▸ empty ▸ moment.pause)
      · rw [if_neg isEmpty]
        rcases moment.round settles with ⟨answers, more, names, further, below, next⟩
        have pause := moment.pause
        rw [trace] at pause further
        have split : (env.recordedRound tree progress).2.outside.trace =
            (done ++ calls.map .resolved ++ .opened tree progress.queue :: answers.map .ofAnswer) ++
              more.map .resolved := by
          rw [further]
          simp
        rcases ih next split with ⟨rest, settled, restBelow, inRounds, empty, last⟩
        refine ⟨.opened tree progress.queue :: (answers.map .ofAnswer ++ (more.map .resolved ++ rest)),
          ?_, ?_, .round pause names inRounds, empty, last⟩
        · rw [settled, further, trace]
          simp
        · intro occurrence member
          rw [← List.append_assoc, ← List.cons_append] at member
          exact (List.mem_append.mp member).elim (below occurrence) (restBelow occurrence)

end

end GraphQL

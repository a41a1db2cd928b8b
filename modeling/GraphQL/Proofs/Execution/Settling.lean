import GraphQL.Proofs.Execution.Completing

/-!
# Rounds

Between two steps of an execution every open place has a task, in the queue or among those that the
current round has still to finish; what a round drops belongs to places that are gone. A task that
is finished leaves tasks that are lower than itself, so rounds end with an empty queue.
-/

namespace GraphQL

variable {σ Object Value : Type}

/-- The keys of some fields, each with whether the field can be null. -/
def ResponseTree.heads (fields : List (String × Bool × ResponseTree)) : List (String × Bool) :=
  fields.map fun field => (field.1, field.2.1)

/-- Data under way fits a report: an object of certain fields with open places, or a null for its
failure. -/
def RootFits (report : ResponsePath → Evaluation Json) (heads : List (String × Bool))
    (clean : Prop) (awaited : ResponsePath → Prop) (tree : ResponseTree) : Prop :=
  ∃ made : Option (List (String × Bool × ResponseTree)),
    tree = (made.map ResponseTree.object).getD .null ∧
      (∀ fields, made = some fields → ResponseTree.heads fields = heads) ∧
      Agrees.Fits report clean awaited false (made.map .object) []

namespace RootFits

variable {report : ResponsePath → Evaluation Json} {heads : List (String × Bool)} {clean : Prop}
  {awaited : ResponsePath → Prop} {tree : ResponseTree}

/-- Only tasks of live places matter. -/
theorem mono (fits : RootFits report heads clean awaited tree) {otherClean : Prop}
    {others : ResponsePath → Prop} (less : otherClean → clean)
    (opens : ∀ path, awaited path → tree.isLive path = true → others path) :
    RootFits report heads otherClean others tree := by
  rcases fits with ⟨made, rfl, named, fits⟩
  refine ⟨made, rfl, named, ?_⟩
  cases made with
  | none => exact ⟨fits.1, fun isClean => fits.2 (less isClean)⟩
  | some fields =>
      have agrees : Agrees report clean awaited false (.object fields) [] := fits
      refine agrees.live.mono less ?_
      rintro path ⟨awaits, rest, same, isLive⟩
      rw [List.nil_append] at same
      exact opens _ awaits (same ▸ isLive)

theorem exists_object_of_live (fits : RootFits report heads clean awaited tree) {path : ResponsePath}
    (isLive : tree.isLive path = true) :
    ∃ fields, tree = .object fields ∧ ResponseTree.heads fields = heads ∧
      Agrees report clean awaited false tree [] := by
  rcases fits with ⟨made, rfl, named, fits⟩
  cases made with
  | none => simp [ResponseTree.isLive, ResponseTree.at?] at isLive
  | some fields => exact ⟨fields, rfl, named fields rfl, fits⟩

end RootFits

/-- What is placed below an object leaves an object of the same fields, or fails. -/
theorem ResponseTree.exists_place_eq {fields : List (String × Bool × ResponseTree)}
    {path : ResponsePath} (isBelow : path ≠ []) (result : Option ResponseTree) :
    ∃ made : Option (List (String × Bool × ResponseTree)),
      (object fields).place path result = made.map object ∧
        ∀ others, made = some others → heads others = heads fields := by
  have unchanged : ∀ others, some fields = some others → heads others = heads fields := by
    rintro others same
    cases same
    rfl
  rcases path with _ | ⟨segment, rest⟩
  · exact absurd rfl isBelow
  · cases segment with
    | index position => exact ⟨some fields, rfl, unchanged⟩
    | field key =>
        rw [place]
        cases found : OrderedMap.find? fields key with
        | none => exact ⟨some fields, rfl, unchanged⟩
        | some entry =>
            rcases entry with ⟨inner, value⟩
            simp only
            cases filled inner (value.place rest result) with
            | none =>
                refine ⟨none, rfl, ?_⟩
                intro others same
                cases same
            | some new =>
                refine ⟨some (OrderedMap.insert fields key (inner, new)), rfl, ?_⟩
                intro others same
                cases same
                exact Agrees.heads_insert found new

section

variable (env : Environment σ Object) (represents : σ → ResolvedValue Object → Value → Prop)
  (pure : PureEnvironment Value) (top : PlanChildren) (root : Value)

/-- A task of a place whose value was forced with an answer. -/
structure Task.IsForced (task : Task Object) (state : σ)
    (answer : Except ExecutionError (ResolvedValue Object)) (plain : Value) : Prop where
  place : pure.placeAt top root task.path =
    some { node := task.node, type := task.type, outcome := .ok plain }
  keyed : ∀ typed ∈ task.node.typedChildren, PlanChildren.IsKeyed typed.2
  answered : Answered (fun value plain => represents state value plain ∧ env.isLazy value = false)
    answer (pure.force plain)

/-- Forced tasks of limited height, below whose places the report has no errors but those that
satisfy a predicate. -/
def ForcedWithin (answers : List (Task Object × Except ExecutionError (ResolvedValue Object)))
    (state : σ) (limit : Nat) (met : FieldError → Prop) : Prop :=
  ∀ entry ∈ answers, (∃ plain, entry.1.IsForced env represents pure top root state entry.2 plain) ∧
    entry.1.height ≤ limit + 1 ∧ ∀ error ∈ (pure.report top root entry.1.path).errors, met error

/-- An execution that started in some state is under way: the data fits a report, and all open
places have tasks, some of which are no longer in the queue. -/
structure Underway (report : ResponsePath → Evaluation Json) (heads : List (String × Bool))
    (start : σ) (met : FieldError → Prop)
    (waiting : List (Task Object)) (limit : Nat) (tree : ResponseTree)
    (progress : Progress σ Object) : Prop where
  keeps : Keeps represents start progress.outside
  fits : RootFits report heads (progress.errors = []) (awaits (waiting ++ progress.queue)) tree
  within : TasksWithin represents pure top root progress.queue progress.outside limit met
  errors : ∀ error ∈ progress.errors, met error

end

section

variable {env : Environment σ Object} {represents : σ → ResolvedValue Object → Value → Prop}
  {pure : PureEnvironment Value} {top : PlanChildren} {root : Value} {start : σ}
  {report : ResponsePath → Evaluation Json} {heads : List (String × Bool)} {met : FieldError → Prop}
  {limit : Nat}

theorem ForcedWithin.later
    {answers : List (Task Object × Except ExecutionError (ResolvedValue Object))} {state later : σ}
    (within : ForcedWithin env represents pure top root answers state limit met)
    (keeps : Keeps represents state later) :
    ForcedWithin env represents pure top root answers later limit met := by
  intro entry member
  rcases within entry member with ⟨⟨plain, forced⟩, bound, errors⟩
  refine ⟨⟨plain, forced.place, forced.keyed, ?_⟩, bound, errors⟩
  exact forced.answered.imp fun value plain _ holds => ⟨keeps _ _ holds.1, holds.2⟩

theorem PureEnvironment.ne_nil_of_placeAt {path : ResponsePath} {place : Place Value}
    (found : pure.placeAt top root path = some place) : path ≠ [] := by
  rintro rfl
  cases found

/-- Completing a forced value advances at its place. -/
theorem Task.IsForced.advances (simulates : Simulates env pure represents) {task : Task Object}
    {answer : Except ExecutionError (ResolvedValue Object)} {plain : Value}
    {before : Progress σ Object}
    (forced : task.IsForced env represents pure top root before.outside answer plain)
    (bound : task.height ≤ limit + 1) :
    Advances represents pure top root task.path limit before
      ((match answer with
        | .ok value => env.complete task.node task.type value task.path
        | .error error => Run.fail task.node task.path error) before) := by
  have answered := forced.answered
  have reports := PureEnvironment.report_eq forced.place
  rw [Task.height] at bound
  cases expected : pure.force plain with
  | error error =>
      rw [expected] at answered
      cases answer with
      | ok value => cases answered
      | error other =>
          cases answered
          refine .fail ?_
          rw [reports]
          simp only [PureEnvironment.evaluatePlace, PureEnvironment.forced, expected]
  | ok next =>
      rw [expected] at answered
      cases answer with
      | error other => cases answered
      | ok value =>
          have inside : FieldsAdvance represents pure top root task.node.typedChildren
              (env.executeTyped task.node.typedChildren) limit :=
            executeTyped_advances_of_keyed simulates forced.keyed (by omega)
          exact completeWith_advances_of_stands simulates forced.keyed inside _ _ _ _ _ (by omega)
            answered.1 answered.2 (.of_place forced.place expected)

/-! ## Finishing tasks -/

/-- Placing what a step made at a live place closes the place. -/
theorem Underway.place (below : ∀ path, path ≠ [] → pure.report top root path = report path)
    {task : Task Object} {waiting : List (Task Object)} {tree : ResponseTree}
    {progress after : Progress σ Object} {made : Option ResponseTree}
    (underway : Underway represents pure top root report heads start met (task :: waiting) limit tree
      progress)
    (isBelow : task.path ≠ []) (isLive : tree.isLive task.path = true)
    (advances : Advances represents pure top root task.path limit progress (made, after))
    (reported : ∀ error ∈ (pure.report top root task.path).errors, met error) :
    Underway represents pure top root report heads start met waiting limit
      ((tree.place task.path made).getD .null) after ∧
      Keeps represents progress.outside after.outside := by
  rcases advances with ⟨tasks, errors, adds, within, subset, fits⟩
  have queue : after.queue = progress.queue ++ tasks := adds.queue
  have recorded : after.errors = progress.errors ++ errors := adds.errors
  refine ⟨⟨underway.keeps.trans adds.keeps, ?_, ?_, ?_⟩, adds.keeps⟩
  · rcases underway.fits.exists_object_of_live isLive with ⟨fields, rfl, named, agrees⟩
    have fitsHere : ∀ inner, Agrees.Fits report (after.errors = [])
        (awaits (waiting ++ after.queue)) inner made ([] ++ task.path) := by
      intro inner
      refine (fits inner).mono ?_ ?_ ?_
      · intro rest
        apply below
        simp [isBelow]
      · intro silent
        exact (List.append_eq_nil_iff.mp (recorded ▸ silent)).2
      · intro rest awaited
        rw [queue]
        exact awaits_append_right _ (awaits_append_right _ awaited)
    have placed := agrees.place
      (fun silent => (List.append_eq_nil_iff.mp (recorded ▸ silent)).1) isLive (by
        rintro path ⟨other, member, same⟩ different
        rcases List.mem_cons.mp member with rfl | member
        · exact absurd same.symm different
        · refine ⟨other, ?_, same⟩
          rw [queue, ← List.append_assoc]
          exact List.mem_append_left _ member) fitsHere
    rcases ResponseTree.exists_place_eq isBelow made with ⟨result, same, kept⟩
    exact ⟨result, by rw [same], fun others made => (kept others made).trans named, same ▸ placed⟩
  · rw [queue]
    exact (underway.within.later adds.keeps (Nat.le_refl _) fun error => id).append
      (within.later (.refl _) (Nat.le_refl _) reported)
  · intro error member
    rw [recorded] at member
    rcases List.mem_append.mp member with member | member
    · exact underway.errors error member
    · exact reported error (subset member)

/-- Finishing a task closes its place, unless it is gone already. -/
theorem Underway.finish (simulates : Simulates env pure represents)
    (below : ∀ path, path ≠ [] → pure.report top root path = report path)
    {task : Task Object} {waiting : List (Task Object)}
    {answer : Except ExecutionError (ResolvedValue Object)} {plain : Value} {tree : ResponseTree}
    {progress : Progress σ Object}
    (underway : Underway represents pure top root report heads start met (task :: waiting) limit tree
      progress)
    (forced : task.IsForced env represents pure top root progress.outside answer plain)
    (bound : task.height ≤ limit + 1)
    (reported : ∀ error ∈ (pure.report top root task.path).errors, met error) :
    Underway represents pure top root report heads start met waiting limit
      (env.finish tree task answer progress).1 (env.finish tree task answer progress).2 ∧
      Keeps represents progress.outside (env.finish tree task answer progress).2.outside := by
  unfold Environment.finish
  by_cases isLive : tree.isLive task.path = true
  · rw [if_pos isLive]
    have isBelow := PureEnvironment.ne_nil_of_placeAt forced.place
    have advances := forced.advances simulates bound
    cases answer with
    | ok value => exact underway.place below isBelow isLive advances reported
    | error error => exact underway.place below isBelow isLive advances reported
  · rw [if_neg isLive]
    refine ⟨⟨underway.keeps, ?_, underway.within, underway.errors⟩, .refl _⟩
    refine underway.fits.mono id ?_
    rintro path ⟨other, member, same⟩ live
    rcases List.mem_cons.mp member with rfl | member
    · exact absurd (same ▸ live) isLive
    · exact ⟨other, member, same⟩

theorem Underway.finishAll (simulates : Simulates env pure represents)
    (below : ∀ path, path ≠ [] → pure.report top root path = report path)
    {answers : List (Task Object × Except ExecutionError (ResolvedValue Object))}
    {tree : ResponseTree} {progress : Progress σ Object}
    (underway : Underway represents pure top root report heads start met (answers.map Prod.fst) limit tree
      progress)
    (forced : ForcedWithin env represents pure top root answers progress.outside limit met) :
    Underway represents pure top root report heads start met [] limit
      (env.finishAll tree answers progress).1 (env.finishAll tree answers progress).2 := by
  induction answers generalizing tree progress with
  | nil => exact underway
  | cons entry rest ih =>
      rcases forced entry List.mem_cons_self with ⟨⟨plain, isForced⟩, bound, reported⟩
      rcases underway.finish simulates below isForced bound reported with ⟨next, keeps⟩
      have others : ForcedWithin env represents pure top root rest progress.outside limit met :=
        fun entry member => forced entry (List.mem_cons_of_mem _ member)
      exact ih next (others.later keeps)

/-! ## Rounds -/

theorem forceAll_forcedWithin (simulates : Simulates env pure represents)
    {tasks : List (Task Object)} {progress : Progress σ Object}
    (within : TasksWithin represents pure top root tasks progress.outside (limit + 1) met) :
    ∃ answers outside, env.forceAll tasks progress = (answers, { progress with outside }) ∧
      answers.map Prod.fst = tasks ∧ Keeps represents progress.outside outside ∧
      ForcedWithin env represents pure top root answers outside limit met := by
  induction tasks generalizing progress with
  | nil =>
      refine ⟨[], progress.outside, rfl, rfl, .refl _, ?_⟩
      intro entry member
      cases member
  | cons task rest ih =>
      rcases within task List.mem_cons_self with ⟨⟨plain, pending⟩, bound, reported⟩
      rcases asked : env.force task.value progress.outside with ⟨answer, outside⟩
      rcases simulates.force pending.represented with ⟨keeps, answered⟩
      rw [asked] at keeps answered
      have others : TasksWithin represents pure top root rest outside (limit + 1) met :=
        TasksWithin.later (fun task member => within task (List.mem_cons_of_mem _ member)) keeps
          (Nat.le_refl _) fun error => id
      rcases @ih { progress with outside } others with
        ⟨answers, last, forced, names, keepsLast, all⟩
      refine ⟨(task, answer) :: answers, last, ?_, ?_, keeps.trans keepsLast, ?_⟩
      · simp only [Environment.forceAll, bind, StateT.bind, Run.ask, asked, forced]
        rfl
      · rw [List.map_cons, names]
      · have first : ForcedWithin env represents pure top root [(task, answer)] outside limit met := by
          intro entry member
          cases List.mem_singleton.mp member
          exact ⟨⟨plain, pending.place, pending.keyed, answered⟩, bound, reported⟩
        intro entry member
        rcases List.mem_cons.mp member with rfl | member
        · exact first.later keepsLast _ (List.mem_singleton_self _)
        · exact all entry member

theorem Underway.round (simulates : Simulates env pure represents)
    (below : ∀ path, path ≠ [] → pure.report top root path = report path) {tree : ResponseTree}
    {progress : Progress σ Object}
    (underway : Underway represents pure top root report heads start met [] (limit + 1) tree progress) :
    Underway represents pure top root report heads start met [] limit (env.round tree progress).1
      (env.round tree progress).2 := by
  let emptied : Progress σ Object := { progress with queue := [] }
  let live := progress.queue.filter fun task => tree.isLive task.path
  have within : TasksWithin represents pure top root live emptied.outside (limit + 1) met :=
    fun task member => underway.within task (List.mem_of_mem_filter member)
  rcases forceAll_forcedWithin simulates within with ⟨answers, outside, forced, names, keeps, all⟩
  have rounded : env.round tree progress = env.finishAll tree answers { emptied with outside } := by
    change env.finishAll tree (env.forceAll live emptied).1 (env.forceAll live emptied).2 = _
    rw [forced]
  rw [rounded]
  refine Underway.finishAll simulates below ⟨underway.keeps.trans keeps, ?_, .nil _ _ _,
    underway.errors⟩ all
  refine underway.fits.mono id ?_
  rintro path ⟨task, member, rfl⟩ isLive
  rw [List.append_nil, names]
  exact ⟨task, List.mem_filter.mpr ⟨member, isLive⟩, rfl⟩

theorem Environment.settle_succ (env : Environment σ Object) (rounds : Nat) (tree : ResponseTree) (progress : Progress σ Object) :
    env.settle (rounds + 1) tree progress =
      if progress.queue.isEmpty then (tree, progress)
      else env.settle rounds (env.round tree progress).1 (env.round tree progress).2 := by
  change (if progress.queue.isEmpty = true then Pure.pure tree
    else env.round tree >>= env.settle rounds : Run σ Object ResponseTree) progress = _
  split <;> rfl

theorem Underway.settle (simulates : Simulates env pure represents)
    (below : ∀ path, path ≠ [] → pure.report top root path = report path) {rounds : Nat}
    {tree : ResponseTree} {progress : Progress σ Object}
    (underway : Underway represents pure top root report heads start met [] rounds tree progress) :
    Underway represents pure top root report heads start met [] 0 (env.settle rounds tree progress).1
      (env.settle rounds tree progress).2 := by
  induction rounds generalizing tree progress with
  | zero => exact underway
  | succ rounds ih =>
      rw [Environment.settle_succ]
      by_cases isEmpty : progress.queue.isEmpty = true
      · rw [if_pos isEmpty]
        refine ⟨underway.keeps, underway.fits, ?_, underway.errors⟩
        rw [List.isEmpty_iff.mp isEmpty]
        exact .nil _ _ _
      · rw [if_neg isEmpty]
        exact ih (underway.round simulates below)

theorem Underway.queue_eq_nil {tree : ResponseTree} {progress : Progress σ Object}
    {waiting : List (Task Object)}
    (underway : Underway represents pure top root report heads start met waiting 0 tree progress) :
    progress.queue = [] := by
  rw [List.eq_nil_iff_forall_not_mem]
  intro task member
  have low := (underway.within task member).2.1
  rw [Task.height] at low
  omega

end

end GraphQL

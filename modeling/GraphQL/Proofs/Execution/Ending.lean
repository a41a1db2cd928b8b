import GraphQL.Proofs.Execution.Correctness
import GraphQL.Proofs.Execution.Filling
import GraphQL.Proofs.Execution.Laziness

/-!
# Executions end

Over slots an execution counts nothing and still ends. Walks up and down end because a slot is made
after the one around it. Rounds end because a task of one round is further down in the plan, or in the
list of its type, than the task of the round before that it came from: so no settling takes more
rounds than there are places on a chain of the plan, whatever lazy values produce.
-/

namespace GraphQL

variable {σ Object : Type}

namespace Machine

/-- Slots show the tree of an operation with fields of certain names. The tasks that wait, of which
some are no longer in the queue, wait for slots of their own in it, and those in the queue can need
only so many rounds. -/
structure IsSettling (machine : Machine σ Object) (names : List String)
    (pending : List (SlotTask Object)) (rounds : Nat) (tree : ResponseTree) : Prop where
  linked : machine.arena.IsLinked
  shows : machine.arena.Shows 0 tree
  root : ∃ made : Option (List (String × Bool × ResponseTree)),
    tree = (made.map .object).getD .null ∧
      ∀ fields, made = some fields → OrderedMap.keys fields ⊆ names
  distinct : ((pending ++ machine.queue).map SlotTask.slot).Nodup
  pending : ∀ entry ∈ pending, entry.IsDue 0 [] (rounds + 1) machine.arena
  queued : ∀ entry ∈ machine.queue, entry.IsDue 0 [] rounds machine.arena

namespace IsSettling

variable {machine after : Machine σ Object} {names : List String}
  {pending : List (SlotTask Object)} {entry : SlotTask Object} {rounds most : Nat}
  {tree : ResponseTree} {made : Option ResponseTree}

/-- There is no slot around the root. -/
theorem isLive_iff (settling : machine.IsSettling names pending rounds tree)
    (due : entry.IsDue 0 [] most machine.arena) :
    tree.isLive entry.task.path = true ↔ ¬machine.arena.IsDead entry.slot := by
  rcases due.leads with ⟨rest, isPath, leads⟩
  rw [isPath, List.nil_append]
  refine leads.isLive_iff settling.linked settling.shows fun top under _ => ?_
  exact Nat.le_zero.mp (under.le settling.linked)

/-- The walk up from the slot of a task tells whether its place is live. -/
theorem climbs (settling : machine.IsSettling names pending rounds tree)
    (due : entry.IsDue 0 [] most machine.arena) :
    machine.arena.Climbs (some entry.slot) (!tree.isLive entry.task.path) := by
  refine settling.linked.climbs due.isOpen.lt_size ?_
  rw [Bool.not_eq_true', ← Bool.not_eq_true, settling.isLive_iff due, not_not]

theorem isReady (settling : machine.IsSettling names pending rounds tree)
    (due : entry.IsDue 0 [] most machine.arena) (isLive : tree.isLive entry.task.path = true) :
    machine.IsReady entry.slot := by
  have isAlive := (settling.isLive_iff due).mp isLive
  refine ⟨settling.linked, isAlive, due.isOpen.resolve_right fun isNull => ?_⟩
  exact isAlive (Arena.isDead_of_null isNull)

/-- The root does not wait, so a task that is live is below it. -/
theorem path_ne_nil (settling : machine.IsSettling names pending rounds tree)
    (due : entry.IsDue 0 [] most machine.arena) (isLive : tree.isLive entry.task.path = true) :
    entry.task.path ≠ [] := by
  intro isRoot
  have isUnset := (settling.isReady due isLive).isUnset
  rcases due.leads with ⟨rest, isPath, leads⟩
  rw [List.nil_append] at isPath
  have shows := settling.shows
  rcases settling.root with ⟨made, rfl, -⟩
  cases isPath.symm.trans isRoot
  cases made with
  | none => cases (Arena.isLive_null _).symm.trans isLive
  | some fields =>
      rcases shows with ⟨entries, holds, -⟩
      rcases leads.eq_or_null with same | isNull
      · rw [same, holds] at isUnset
        cases isUnset
      · cases holds.symm.trans isNull

/-- A result for the slot of a task is put at the place of the task. -/
theorem place (settling : machine.IsSettling names (entry :: pending) rounds tree)
    (isLive : tree.isLive entry.task.path = true)
    (makes : machine.Makes [entry.slot] entry.slot entry.task.path rounds made after) :
    after.IsSettling names pending rounds ((tree.place entry.task.path made).getD .null) := by
  have due := settling.pending entry List.mem_cons_self
  rcases due.leads with ⟨rest, isPath, leads⟩
  rw [List.nil_append] at isPath
  subst isPath
  rcases makes.queued with ⟨more, isMore, distinctMore, slots, dueMore⟩
  have distinct := settling.distinct
  rw [List.cons_append, List.map_cons, List.nodup_cons] at distinct
  have others {other : SlotTask Object} (member : other ∈ pending ++ machine.queue) :
      other.slot ≠ entry.slot := fun same => distinct.1 (same ▸ List.mem_map_of_mem member)
  have later {other : SlotTask Object} {most : Nat} (member : other ∈ pending ++ machine.queue)
      (due : other.IsDue 0 [] most machine.arena) : other.IsDue 0 [] most after.arena :=
    due.later settling.linked makes.linked makes.evolves
      (makes.spares _ due.isOpen fun same => others member (List.mem_singleton.mp same))
  have known {other : SlotTask Object} (member : other ∈ pending ++ machine.queue) :
      other.slot < machine.arena.size := by
    rcases List.mem_append.mp member with member | member
    · exact (settling.pending other (List.mem_cons_of_mem _ member)).isOpen.lt_size
    · exact (settling.queued other member).isOpen.lt_size
  refine ⟨makes.linked, ?_, ?_, ?_, ?_, ?_⟩
  · exact (makes.becomes.place leads settling.linked settling.shows isLive).shows
  · have isBelow := settling.path_ne_nil due isLive
    rcases settling.root with ⟨root, rfl, subset⟩
    cases root with
    | none => cases (Arena.isLive_null _).symm.trans isLive
    | some fields =>
        rcases ResponseTree.exists_place_eq isBelow made with ⟨result, same, kept⟩
        refine ⟨result, congrArg (·.getD .null) same, fun others isMade => ?_⟩
        have keys := congrArg (List.map Prod.fst) (kept others isMade)
        simp only [ResponseTree.heads, List.map_map, Function.comp_def] at keys
        exact (congrArg (· ⊆ names) keys).mpr (subset fields rfl)
  · rw [isMore, ← List.append_assoc, List.map_append, List.nodup_append]
    refine ⟨distinct.2, distinctMore, ?_⟩
    intro slot memberOld other memberNew same
    rcases List.mem_map.mp memberOld with ⟨old, isOld, rfl⟩
    rcases List.mem_map.mp memberNew with ⟨new, isNew, rfl⟩
    rcases slots new isNew with isTouched | isLater
    · exact others isOld (same.trans (List.mem_singleton.mp isTouched))
    · exact Nat.not_le_of_lt (known isOld) (same ▸ isLater)
  · exact fun other member => later (List.mem_append_left _ member)
      (settling.pending other (List.mem_cons_of_mem _ member))
  · intro other member
    rw [isMore] at member
    rcases List.mem_append.mp member with old | new
    · exact later (List.mem_append_right _ old) (settling.queued other old)
    · have dueNew := dueMore other new
      rcases dueNew.leads with ⟨further, isFurther, leadsNew⟩
      refine ⟨dueNew.isOpen, ⟨_, isFurther, ?_⟩, dueNew.height, dueNew.keyed⟩
      exact (leads.evolves settling.linked makes.linked makes.evolves).trans leadsNew makes.linked

/-- A task that is not finished is no longer waited for. -/
theorem skip (settling : machine.IsSettling names (entry :: pending) rounds tree) :
    machine.IsSettling names pending rounds tree :=
  { settling with
    distinct := settling.distinct.sublist ((List.sublist_cons_self entry _).map _)
    pending := fun other member => settling.pending other (List.mem_cons_of_mem _ member) }

variable {env : Environment σ Object}
  {forced : List (SlotTask Object × Except ExecutionError (ResolvedValue Object))}

/-- A task that was forced is finished over slots as without them. -/
theorem finish {answer : Except ExecutionError (ResolvedValue Object)}
    (settling : machine.IsSettling names (entry :: pending) rounds tree)
    (isEager : ∀ value, answer = .ok value → env.isLazy value = false) :
    let finished := env.finish tree entry.task answer machine.progress
    ∃ middle, (∀ rest after, env.Finishes rest middle after →
        env.Finishes ((entry, answer) :: rest) machine after) ∧
      middle.progress = finished.2 ∧ middle.IsSettling names pending rounds finished.1 := by
  have due := settling.pending entry List.mem_cons_self
  have climbs := settling.climbs due
  cases isLive : tree.isLive entry.task.path with
  | false =>
      rw [isLive] at climbs
      simp only [Environment.finish, isLive, Bool.false_eq_true, if_false]
      exact ⟨machine, fun rest after => .dead climbs, rfl, settling.skip⟩
  | true =>
      rw [isLive] at climbs
      have ready := settling.isReady due isLive
      simp only [Environment.finish, isLive, if_true, bind]
      cases answer with
      | error error =>
          have failed : machine.Mirrors [entry.slot] entry.slot entry.task.path rounds
              (Fails entry.slot entry.task.node entry.task.path error machine)
              (Run.fail entry.task.node entry.task.path error machine.progress) :=
            mirrors_fail ready.linked ready.bound
          rcases failed with ⟨middle, fails, isProgress, makes⟩
          exact ⟨middle, fun rest after => .failed climbs fails, isProgress,
            settling.place isLive makes⟩
      | ok value =>
          have mirrored : FieldsMirrored env entry.task.node
              (env.executeTyped entry.task.node.typedChildren) :=
            (executeTyped_mirrors _ due.keyed).fieldsMirrored
          have height := due.height
          rw [Task.height] at height
          have completed : machine.Mirrors [entry.slot] entry.slot entry.task.path rounds
              (env.Completes entry.slot entry.task.node entry.task.type value entry.task.path machine)
              (env.complete entry.task.node entry.task.type value entry.task.path
                machine.progress) := by
            refine completeWith_mirrors_of_eager (isEager value rfl) ready ?_
            intro machine verdict state asked ready
            refine (follow_mirrors mirrored asked ?_ ready).mono (by omega) fun after => id
            intro item fewer machine slot value path ready
            refine (completeWith_mirrors due.keyed mirrored item value path ready).mono ?_ fun _ => id
            omega
          rcases completed with ⟨middle, completes, isProgress, makes⟩
          exact ⟨middle, fun rest after => .completed climbs completes, isProgress,
            settling.place isLive makes⟩

/-- Tasks that were forced are finished over slots as without them. -/
theorem finishAll (settling : machine.IsSettling names (forced.map Prod.fst) rounds tree)
    (isEager : ∀ entry ∈ forced, ∀ value, entry.2 = .ok value → env.isLazy value = false) :
    let finished := env.finishAll tree (forced.map fun entry => (entry.1.task, entry.2))
      machine.progress
    ∃ after, env.Finishes forced machine after ∧ after.progress = finished.2 ∧
      after.IsSettling names [] rounds finished.1 := by
  induction forced generalizing machine tree with
  | nil => exact ⟨machine, .done, rfl, settling⟩
  | cons first rest ih =>
      rcases first with ⟨entry, answer⟩
      rcases settling.finish (isEager _ List.mem_cons_self) with
        ⟨middle, finishes, isProgress, settlingRest⟩
      rcases ih settlingRest fun other member => isEager other (List.mem_cons_of_mem _ member) with
        ⟨after, finishesRest, isProgressRest, settled⟩
      rw [isProgress] at isProgressRest settled
      exact ⟨after, finishes rest after finishesRest, isProgressRest, settled⟩

/-- The tasks whose slots are not dead are those whose places are live. -/
theorem retains (settling : machine.IsSettling names [] rounds tree)
    {entries : List (SlotTask Object)} (subset : entries ⊆ machine.queue) :
    Environment.Retains machine.arena entries
      (entries.filter fun entry => tree.isLive entry.task.path) := by
  induction entries with
  | nil => exact .nil
  | cons entry rest ih =>
      rcases List.cons_subset.mp subset with ⟨member, subset⟩
      have climbs := settling.climbs (settling.queued entry member)
      cases isLive : tree.isLive entry.task.path with
      | false =>
          rw [isLive] at climbs
          rw [List.filter_cons_of_neg (by simp [isLive])]
          exact .drop climbs (ih subset)
      | true =>
          rw [isLive] at climbs
          rw [List.filter_cons_of_pos (by simp [isLive])]
          exact .keep climbs (ih subset)

end IsSettling

/-- The values of tasks are forced as without slots, and are not lazy then. -/
theorem forceEach_spec {env : Environment σ Object} (settles : env.Settles)
    (entries : List (SlotTask Object)) (progress : Progress σ Object) :
    ∃ forced outside, env.forceEach entries progress.outside = (forced, outside) ∧
      forced.map Prod.fst = entries ∧
      env.forceAll (entries.map SlotTask.task) progress =
        (forced.map fun entry => (entry.1.task, entry.2), { progress with outside }) ∧
      ∀ entry ∈ forced, ∀ value, entry.2 = .ok value → env.isLazy value = false := by
  induction entries generalizing progress with
  | nil => exact ⟨[], progress.outside, rfl, rfl, rfl, nofun⟩
  | cons entry rest ih =>
      rcases asked : env.force entry.task.value progress.outside with ⟨answer, outside⟩
      rcases ih { progress with outside } with ⟨forced, last, forces, names, same, isEager⟩
      refine ⟨(entry, answer) :: forced, last, ?_, ?_, ?_, ?_⟩
      · simp only [Environment.forceEach, bind, StateT.bind, asked, forces]
        rfl
      · rw [List.map_cons, names]
      · simp only [List.map_cons, Environment.forceAll, bind, StateT.bind, Run.ask, asked, same]
        rfl
      · intro other member value isValue
        rcases List.mem_cons.mp member with rfl | member
        · refine settles entry.task.value progress.outside value ?_
          rw [asked]
          exact isValue
        · exact isEager other member value isValue

namespace IsSettling

variable {machine : Machine σ Object} {names : List String} {rounds : Nat} {tree : ResponseTree}
  {env : Environment σ Object}

/-- After a round over slots the tasks that wait need one round less. -/
theorem round (settles : env.Settles) (settling : machine.IsSettling names [] (rounds + 1) tree) :
    let rounded := env.round tree machine.progress
    ∃ alive forced outside middle, Environment.Retains machine.arena machine.queue alive ∧
      env.forceEach alive machine.outside = (forced, outside) ∧
      env.Finishes forced { machine with outside, queue := [] } middle ∧
      middle.progress = rounded.2 ∧ middle.IsSettling names [] rounds rounded.1 := by
  let alive := machine.queue.filter fun entry => tree.isLive entry.task.path
  rcases forceEach_spec settles alive { machine.progress with queue := [] } with
    ⟨forced, outside, forces, same, forcesTasks, isEager⟩
  have tasks : (machine.queue.map SlotTask.task).filter (fun task => tree.isLive task.path) =
      alive.map SlotTask.task := List.filter_map
  have rounded : env.round tree machine.progress =
      env.finishAll tree (forced.map fun entry => (entry.1.task, entry.2))
        { machine with outside, queue := [] }.progress := by
    change (env.forceAll ((machine.queue.map SlotTask.task).filter fun task =>
      tree.isLive task.path) >>= env.finishAll tree) { machine.progress with queue := [] } = _
    rw [tasks]
    simp only [bind, StateT.bind, forcesTasks]
    rfl
  have isSublist : (forced.map Prod.fst).Sublist machine.queue := same ▸ List.filter_sublist
  have started : IsSettling { machine with outside, queue := [] } names (forced.map Prod.fst) rounds
      tree := by
    refine ⟨settling.linked, settling.shows, settling.root, ?_, ?_, nofun⟩
    · rw [List.append_nil]
      exact settling.distinct.sublist (isSublist.map _)
    · exact fun entry member => settling.queued entry (isSublist.subset member)
  rcases started.finishAll isEager with ⟨middle, finishes, isProgress, settled⟩
  simp only [rounded]
  exact ⟨alive, forced, outside, middle, settling.retains (List.Subset.refl _), forces, finishes,
    isProgress, settled⟩

/-- No task can wait that needs no round. -/
theorem queue_eq_nil (settling : machine.IsSettling names [] 0 tree) : machine.queue = [] := by
  rw [List.eq_nil_iff_forall_not_mem]
  intro entry member
  have height := (settling.queued entry member).height
  rw [Task.height] at height
  omega

/-- Settling ends over slots, within the rounds that the tasks in the queue need. -/
theorem settle (settles : env.Settles) (settling : machine.IsSettling names [] rounds tree) :
    let settled := env.settle rounds tree machine.progress
    ∃ after, env.SettlesWithin rounds machine after ∧ after.progress = settled.2 ∧
      after.IsSettling names [] 0 settled.1 := by
  induction rounds generalizing machine tree with
  | zero => exact ⟨machine, .settled settling.queue_eq_nil, rfl, settling⟩
  | succ rounds ih =>
      simp only [Environment.settle_succ]
      cases isQueue : machine.queue with
      | nil =>
          rw [if_pos (by simp [progress, isQueue])]
          have none (entry : SlotTask Object) : entry ∉ machine.queue := by
            rw [isQueue]
            exact List.not_mem_nil
          refine ⟨machine, .settled isQueue, rfl, { settling with pending := ?_, queued := ?_ }⟩
          · exact fun _ member => absurd member List.not_mem_nil
          · exact fun entry member => absurd member (none entry)
      | cons entry rest =>
          rw [if_neg (by simp [progress, isQueue])]
          rcases settling.round settles with
            ⟨alive, forced, outside, middle, retains, forces, finishes, isProgress, next⟩
          rcases ih next with ⟨after, others, isProgressLater, settled⟩
          rw [isProgress] at isProgressLater settled
          have isNot : machine.queue ≠ [] := by
            rw [isQueue]
            exact List.cons_ne_nil _ _
          exact ⟨after, .round isNot retains forces finishes others, isProgressLater, settled⟩

/-- What was made for the root is settled next. -/
theorem of_makes {after : Machine σ Object} {most : Nat}
    {made : Option (List (String × Bool × ResponseTree))}
    (makes : machine.Makes [] 0 [] most (made.map .object) after) (isEmpty : machine.queue = [])
    (le : most ≤ rounds) (subset : ∀ fields, made = some fields → OrderedMap.keys fields ⊆ names) :
    after.IsSettling names [] rounds ((made.map .object).getD .null) := by
  rcases makes.queued with ⟨more, isMore, distinct, -, due⟩
  rw [isEmpty, List.nil_append] at isMore
  refine ⟨makes.linked, makes.becomes.shows, ⟨made, rfl, subset⟩, ?_, nofun, ?_⟩
  · rw [List.nil_append, isMore]
    exact distinct
  · rw [isMore]
    exact fun entry member => (due entry member).mono le

theorem climbs_root (settling : machine.IsSettling names [] rounds tree) :
    machine.arena.Climbs (some 0) (!tree.isLive []) := by
  have bound : 0 < machine.arena.size := by
    rcases settling.root with ⟨made, rfl, -⟩
    have shows := settling.shows
    cases made with
    | none => exact Arena.lt_size_of_value? shows
    | some fields =>
        rcases shows with ⟨entries, holds, -⟩
        exact Arena.lt_size_of_value? holds
  have isLive := (Arena.Leads.here 0).isLive_iff settling.linked settling.shows
    fun top under _ => Nat.le_zero.mp (under.le settling.linked)
  refine settling.linked.climbs bound ?_
  rw [Bool.not_eq_true', ← Bool.not_eq_true, isLive, not_not]

end IsSettling

/-! ## Operations -/

variable {env : Environment σ Object} {machine : Machine σ Object} {names : List String}
  {tree : ResponseTree} {rounds : Nat}

theorem start_isSettling (outside : σ) :
    (start outside : Machine σ Object).IsSettling [] [] 0 (.object []) where
  linked := by
    have only {index : Nat} {value : SlotValue}
        (holds : (start outside : Machine σ Object).arena.value? index = some value) :
        value = .object [] := by
      cases index with
      | zero => exact (Option.some.inj holds).symm
      | succ index => cases holds
    refine ⟨?_, ?_, ?_⟩
    · intro index parent isParent
      cases index with
      | zero => cases isParent
      | succ index => cases isParent
    · intro index value holds child member
      cases only holds
      cases member
    · intro index value holds
      cases only holds
      exact List.nodup_nil
  shows := ⟨[], rfl, rfl⟩
  root := ⟨some [], rfl, fun fields same => by cases same; exact List.nil_subset _⟩
  distinct := List.nodup_nil
  pending := nofun
  queued := nofun

/-- The root is not dead at first. -/
theorem IsSettling.not_isDead {fields : List (String × Bool × ResponseTree)}
    (settling : machine.IsSettling names [] rounds (.object fields)) :
    ¬machine.arena.IsDead 0 :=
  ((Arena.Leads.here 0).isLive_iff settling.linked settling.shows
    fun _ under _ => Nat.le_zero.mp (under.le settling.linked)).mp rfl

/-- The fields of the root are executed together and settled over slots as without them. -/
theorem executeTogether_ends (settles : env.Settles) {top : PlanChildren} (keyed : top.IsKeyed)
    (root : ResolvedValue Object) (outside : σ) :
    let executed := env.executeTogether top root { outside }
    ∃ middle after, env.ExecutesFields 0 top root [] (start outside) middle ∧
      env.SettlesWithin (PlanNode.childrenPlaces top) middle after ∧
      after.progress = executed.2 ∧ after.arena.Shows 0 executed.1 := by
  have started : (start outside : Machine σ Object).IsSettling [] [] 0 (.object []) :=
    start_isSettling outside
  rcases ran : env.executeFields top root [] { outside } with ⟨made, progress⟩
  rcases executeFields_mirrors top keyed root started.linked started.not_isDead started.shows
    (fun _ _ => List.not_mem_nil) ran with ⟨middle, executes, isProgress, makes⟩
  have settling : middle.IsSettling ((made.getD []).map Prod.fst) []
      (PlanNode.childrenPlaces top) ((made.map .object).getD .null) := by
    refine .of_makes makes rfl (Nat.le_refl _) fun fields isMade => ?_
    rw [isMade]
    exact List.Subset.refl _
  rcases settling.settle settles with ⟨after, settlesWithin, isProgressLater, settled⟩
  rw [isProgress] at isProgressLater settled
  simp only [Environment.executeTogether, bind, StateT.bind, ran]
  exact ⟨middle, after, executes, settlesWithin, isProgressLater, settled.shows⟩

theorem addField_eq_getD {fields : List (String × Bool × ResponseTree)} {key : String}
    (isNew : key ∉ OrderedMap.keys fields) (nullable : Bool) (made : Option ResponseTree) :
    Environment.addField (.object fields) key nullable made =
      (((ResponseTree.filled nullable made).map fun value =>
        fields ++ [(key, nullable, value)]).map .object).getD .null := by
  unfold Environment.addField
  cases ResponseTree.filled nullable made with
  | none => rfl
  | some value => exact congrArg ResponseTree.object (OrderedMap.insert_of_not_mem isNew _)

/-- The fields of the root are executed in turn and each is settled over slots as without them. -/
theorem executeInTurn_ends (settles : env.Settles) (root : ResolvedValue Object)
    {children : PlanChildren}
    (keyed : ∀ entry ∈ children, ∀ typed ∈ entry.2.typedChildren, PlanChildren.IsKeyed typed.2)
    (distinct : (children.map fun entry => entry.2.responseKey).Nodup)
    (bound : ∀ entry ∈ children, PlanNode.places entry.2 ≤ rounds)
    (settling : machine.IsSettling names [] 0 tree)
    (isNew : ∀ entry ∈ children, entry.2.responseKey ∉ names) :
    let executed := env.executeInTurn rounds root children tree machine.progress
    ∃ after, env.ExecutesInTurn rounds root children machine after ∧
      after.progress = executed.2 ∧ after.arena.Shows 0 executed.1 := by
  induction children generalizing machine names tree with
  | nil => exact ⟨machine, .done, rfl, settling.shows⟩
  | cons entry rest ih =>
      rcases entry with ⟨key, node⟩
      rw [List.map_cons, List.nodup_cons] at distinct
      have climbs := settling.climbs_root
      have keyedRest (entry : String × PlanNode) (member : entry ∈ rest) :=
        keyed entry (List.mem_cons_of_mem _ member)
      have boundRest (entry : String × PlanNode) (member : entry ∈ rest) :=
        bound entry (List.mem_cons_of_mem _ member)
      have isNewRest (entry : String × PlanNode) (member : entry ∈ rest) :=
        isNew entry (List.mem_cons_of_mem _ member)
      simp only [executeInTurn_cons]
      rcases id settling.root with ⟨made, rfl, subset⟩
      cases made with
      | none => exact ⟨machine, .dead climbs, rfl, settling.shows⟩
      | some fields =>
          rw [if_neg (by simp [ResponseTree.isLive, ResponseTree.at?])]
          cases included : node.isIncluded env.bindings with
          | false =>
              rw [if_pos (by simp)]
              rcases ih keyedRest distinct.2 boundRest settling isNewRest with
                ⟨after, executes, isProgress, shows⟩
              exact ⟨after, .skipped climbs included executes, isProgress, shows⟩
          | true =>
              rw [if_neg (by simp)]
              rcases ran : env.executeField node root [.field node.responseKey] machine.progress with
                ⟨result, progress⟩
              have isNewField : node.responseKey ∉ OrderedMap.keys fields := fun member =>
                isNew _ List.mem_cons_self (subset fields rfl member)
              have ranBelow : env.executeField node root ([] ++ [.field node.responseKey])
                  machine.progress = (result, progress) := ran
              rcases executeField_mirrors node (keyed _ List.mem_cons_self) root settling.linked
                settling.not_isDead settling.shows isNewField ranBelow with
                ⟨middle, executes, isProgress, makes⟩
              rw [← Function.comp_def ResponseTree.object, ← Option.map_map] at makes
              have added : middle.IsSettling (node.responseKey :: names) [] rounds
                  (Environment.addField (.object fields) node.responseKey
                    (!node.returnType.isNonNull) result) := by
                rw [addField_eq_getD isNewField]
                refine .of_makes makes settling.queue_eq_nil (bound _ List.mem_cons_self) ?_
                intro others isMade
                rcases Option.map_eq_some_iff.mp isMade with ⟨value, -, rfl⟩
                rw [OrderedMap.keys_append]
                refine List.append_subset.mpr ⟨?_, ?_⟩
                · exact fun name member => List.mem_cons_of_mem _ (subset fields rfl member)
                · exact fun name member => List.mem_cons.mpr (.inl (List.mem_singleton.mp member))
              rcases added.settle settles with ⟨settled, settlesWithin, isProgressLater, next⟩
              rw [isProgress] at isProgressLater next
              have isNewLater (entry : String × PlanNode) (member : entry ∈ rest) :
                  entry.2.responseKey ∉ node.responseKey :: names := by
                rw [List.mem_cons, not_or]
                refine ⟨fun same => distinct.1 ?_, isNewRest entry member⟩
                exact same ▸ List.mem_map_of_mem (f := fun entry => entry.2.responseKey) member
              rcases ih keyedRest distinct.2 boundRest next isNewLater with
                ⟨after, others, isProgressRest, shows⟩
              rw [isProgressLater] at isProgressRest shows
              exact ⟨after, .next climbs included executes settlesWithin others, isProgressRest, shows⟩

/-- Executing an operation ends over slots, and does what it does without them. -/
theorem executeOperation_ends (settles : env.Settles) {operation : PlanOperation}
    (keyed : operation.children.IsKeyed) (root : ResolvedValue Object) (outside : σ) :
    let executed := env.executeOperation operation root { outside }
    ∃ after, env.Executes (PlanNode.childrenPlaces operation.children) operation root (start outside)
        after ∧ after.progress = executed.2 ∧ after.arena.Shows 0 executed.1 := by
  have together := executeTogether_ends settles keyed root outside
  unfold Environment.executeOperation
  cases isKind : operation.kind with
  | query | subscription =>
      rcases together with ⟨middle, after, executes, settlesWithin, isProgress, shows⟩
      have isOther : operation.kind ≠ .mutation := by
        rw [isKind]
        nofun
      exact ⟨after, .together isOther executes settlesWithin, isProgress, shows⟩
  | mutation =>
      rcases keyed with ⟨distinct, inner⟩
      rcases executeInTurn_ends settles root inner distinct (fun entry => PlanNode.places_le)
        (start_isSettling outside) (fun _ _ => List.not_mem_nil) with
        ⟨after, executes, isProgress, shows⟩
      exact ⟨after, .inTurn isKind executes, isProgress, shows⟩

end Machine

/-! ## Requests -/

/-- Whatever resolvers and lazy values do, an execution over slots ends, and there is one state in
which it can. All walks from slot to slot end, and every settling does within as many rounds as there
are places on the chain of the plan that has the most, where a node has one place and one more for each
list of its type. The root has its JSON then, which with the errors is the response of the execution;
the session is that of the execution too. -/
theorem Executor.execute_ends {host : Host} {executor : Executor host}
    (typed : executor.accessors.IsTyped) {plan : Plan} {request : Request host}
    {operation : PlanOperation} {bindings : Variables}
    (prepared : executor.prepare plan request.operation request.bindings = .ok (operation, bindings))
    (keyed : operation.children.IsKeyed) (session : Session host) :
    ∃ rounds,
      IsGreatest {places | ∃ chain,
        PlanNode.IsChain (fun _ => true) operation.children chain ∧
          (chain.map fun node => 1 + node.returnType.listDepth).sum = places} rounds ∧
      ∃ (machine : Machine (Session host) host.Object) (data : Json),
        (∀ after, (executor.environment bindings request.context).Executes rounds operation
          request.root (.start session) after ↔ after = machine) ∧
        (∀ json, machine.arena.Renders 0 json ↔ json = data) ∧
        executor.execute plan request session = (.ofData data machine.errors, machine.outside) := by
  rcases Machine.executeOperation_ends (executor.settles_environment typed bindings request.context)
    keyed request.root session with ⟨machine, executes, isProgress, shows⟩
  rcases ran : (executor.environment bindings request.context).executeOperation operation
    request.root { outside := session } with ⟨tree, progress⟩
  rw [ran] at isProgress shows
  dsimp only at isProgress shows
  refine ⟨PlanNode.childrenPlaces operation.children,
    PlanNode.measures_childrenPlaces.isGreatest operation.children, machine, tree.toJson, ?_,
    fun json => shows.renders_iff, ?_⟩
  · refine fun after => ⟨fun other => other.unique executes, ?_⟩
    rintro rfl
    exact executes
  · simp only [execute, prepared, ran, ← isProgress]
    rfl

/-! ## Values that never settle -/

namespace EndlessValues

/-- A host with one object. -/
def host : Host where
  Object := Unit
  kind _ := "Endless"
  Work := Unit
  State := Unit

/-- The object is unwrapped to itself. -/
def accessors : Accessors host :=
  AccessorTable.register host.initialAccessors "Endless" fun value => some (.action (.done value))

def source : String :=
  "type Query { word: String words: [String] }"

def schema : Schema :=
  (Schema.ofSource source).toOption.getD {}

/-- A word is the object, and words are waited for, which then are the object twice. -/
def executor : Executor host where
  schema
  code :=
    { answer _ := .done (.ok (.list [.object (), .object ()]))
      compute _ := .done .null
      load _ _ := .done (.ok []) }
  resolvers :=
    { fallback := some fun call =>
        if call.info.name = "words" then Resolver.pending (fun _ => ()) call
        else .done (.ok (.object ())) }
  accessors

def plan : Plan :=
  Plan.ofDocument schema
    (((Document.parse "{ word words }").toOption.map (·.document)).getD ⟨[], ⟨0, 0⟩⟩) none

def request : Request host where
  root := .null

def session : Session host where
  state := ()

theorem isTyped : executor.accessors.IsTyped := by
  have distinct : "Endless" ≠ Host.deferredKind := by decide
  exact .register (.initial fun _ => distinct) fun _ _ => rfl

def data : Json :=
  .object [("word", .null), ("words", .array [.null, .null])]

theorem gives_up :
    (executor.prepare plan none []).toOption.any (fun (operation, _) =>
        PlanNode.childrenPlaces operation.children == 2) = true ∧
      (executor.execute plan request session).1.data.any (· == data) = true ∧
      (executor.execute plan request session).1.messages.length = 3 := by
  decide +kernel

/-- One round is for the word and the list, and another one for the items of the list. -/
theorem ends_after_two_rounds :
    ∃ operation bindings machine value,
      executor.prepare plan request.operation request.bindings = .ok (operation, bindings) ∧
      (executor.environment bindings request.context).Executes 2 operation request.root
        (.start session) machine ∧
      machine.arena.Renders 0 value ∧ (value == data) = true ∧ machine.errors.length = 3 := by
  rcases gives_up with ⟨two, shows, messages⟩
  rcases exists_ok_of_any two with ⟨⟨operation, bindings⟩, prepared, places⟩
  have prepares : executor.prepare plan request.operation request.bindings =
      .ok (operation, bindings) := prepared
  rcases Executor.exists_mem_of_prepare prepares with ⟨key, member⟩
  rcases Executor.execute_ends isTyped prepares (Plan.operation_isKeyed member) session with
    ⟨rounds, most, machine, value, executes, renders, response⟩
  have same : rounds = 2 :=
    (most.unique (PlanNode.measures_childrenPlaces.isGreatest _)).trans (eq_of_beq places)
  subst same
  rw [response] at shows messages
  refine ⟨operation, bindings, machine, value, prepares, (executes machine).mpr rfl,
    (renders value).mpr rfl, shows, ?_⟩
  have recorded : (Response.ofData value machine.errors).messages.length = machine.errors.length := by
    cases machine.errors <;> simp [Response.messages, Response.ofData]
  exact recorded.symm.trans messages

end EndlessValues

end GraphQL

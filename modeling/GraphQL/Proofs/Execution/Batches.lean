import GraphQL.Proofs.Execution.Histories

/-!
# Batches in a session

The steps on the batches of a session are to enqueue an input, to ask for the result of a member,
and to count what waits under a key. Whatever steps are done in whatever order, the history that
they make is lawful: a loader is called once for a group, when a member of the group is first asked
for its result, and with what waits under the key; every member gets its own value from that call.
-/

namespace GraphQL

variable {host : Host} {α : Type}

namespace Session

/-- The inputs that an action enqueues. -/
def enqueued : Action host α → Session host → List (Enqueued host)
  | .done _, _ => []
  | .change update next, session =>
      enqueued (next session.state) { session with state := update session.state }
  | .postpone source next, session =>
      enqueued (next session.pendings.length)
        { session with pendings := session.pendings ++ [.waiting source] }
  | .defer work next, session =>
      enqueued (next session.deferrals.length)
        { session with deferrals := session.deferrals ++ [.waiting work] }
  | .enqueue key input loader next, session =>
      let (member, batches) := session.batches.enqueue key input loader
      ⟨member, input, loader⟩ :: enqueued (next member) { session with batches }

/-- What an action does with batches. -/
def performEvents (action : Action host α) (session : Session host) : BatchHistory host :=
  (enqueued action session).map .joined

/-- What the loading of a group does with batches. -/
def groupEvents (code : HostCode host) (group : Nat) (session : Session host) :
    BatchHistory host :=
  match session.batches.groups[group]? with
  | some ⟨key, loader, .collecting inputs⟩ =>
      let calling := { session with batches := session.batches.setStage group .loading }
      .called group key loader inputs :: performEvents (code.load loader inputs) calling ++
        [.finished group (perform (code.load loader inputs) calling).1]
  | _ => []

/-- What asking for the result of a member does with batches. -/
def loadEvents (code : HostCode host) (member : BatchMember) (session : Session host) :
    BatchHistory host :=
  groupEvents code member.group session ++ [.loaded member (load code member session).1]

/-- An action enqueues its inputs one after the other. -/
theorem reflects_perform {history : BatchHistory host} (action : Action host α)
    {session : Session host} (reflects : session.batches.Reflects history) :
    (perform action session).2.batches.Reflects (history ++ performEvents action session) := by
  induction action generalizing session history with
  | done result => rwa [performEvents, enqueued, List.map_nil, List.append_nil]
  | change update next ih => exact ih _ reflects
  | postpone source next ih => exact ih _ reflects
  | defer work next ih => exact ih _ reflects
  | enqueue key input loader next ih =>
      let entry : Enqueued host := ⟨(session.batches.enqueue key input loader).1, input, loader⟩
      let later := { session with batches := (session.batches.enqueue key input loader).2 }
      have joined : (perform (next entry.member) later).2.batches.Reflects
          (history ++ [.joined entry] ++ performEvents (next entry.member) later) :=
        ih _ (reflects.enqueue key input loader)
      rw [List.append_assoc] at joined
      exact joined

theorem getElem?_perform_loading {number : Nat} {key : String} {loader : host.Work}
    (action : Action host α) (session : Session host) :
    (perform action session).2.batches.groups[number]? = some ⟨key, loader, .loading⟩ ↔
      session.batches.groups[number]? = some ⟨key, loader, .loading⟩ := by
  induction action generalizing session with
  | done result => rfl
  | change update next ih => exact ih _ _
  | postpone source next ih => exact ih _ _
  | defer work next ih => exact ih _ _
  | enqueue key input loader next ih =>
      exact (ih _ _).trans (BatchTable.getElem?_enqueue_loading key input loader)

section

variable {code : HostCode host} {group : Nat} {session : Session host}
  {history : BatchHistory host}

theorem loadGroup_of_collecting {key : String} {loader : host.Work} {inputs : List Json}
    (found : session.batches.groups[group]? = some ⟨key, loader, .collecting inputs⟩) :
    loadGroup code group session =
      let done := perform (code.load loader inputs)
        { session with batches := session.batches.setStage group .loading }
      let result := checkedBatch key inputs.length done.1
      (result, { done.2 with batches := done.2.batches.setStage group (.loaded result) }) := by
  simp only [loadGroup, bind, StateT.bind, get, getThe, MonadStateOf.get, StateT.get, pure, found]
  rfl

/-- A group that does not collect is not loaded again. -/
theorem loadGroup_of_not_collecting
    (done : ∀ found inputs, session.batches.groups[group]? = some found →
      found.stage ≠ .collecting inputs) :
    (loadGroup code group session).2 = session ∧ groupEvents code group session = [] ∧
      ∀ key loader result, session.batches.groups[group]? = some ⟨key, loader, .loaded result⟩ →
        (loadGroup code group session).1 = result := by
  rcases found : session.batches.groups[group]? with _ | ⟨key, loader, inputs | _ | result⟩
  · have run : loadGroup code group session =
        (.error (.internal "batch result out of range"), session) := by
      simp only [loadGroup, bind, StateT.bind, get, getThe, MonadStateOf.get, StateT.get, pure, found]
      rfl
    exact ⟨by rw [run], by simp only [groupEvents, found], fun _ _ _ isFound => by cases isFound⟩
  · exact absurd rfl (done _ inputs found)
  · have run : loadGroup code group session =
        (.error (.internal "batch result out of range"), session) := by
      simp only [loadGroup, bind, StateT.bind, get, getThe, MonadStateOf.get, StateT.get, pure, found]
      rfl
    exact ⟨by rw [run], by simp only [groupEvents, found], fun _ _ _ isFound => by cases isFound⟩
  · have run : loadGroup code group session = (result, session) := by
      simp only [loadGroup, bind, StateT.bind, get, getThe, MonadStateOf.get, StateT.get, pure, found]
      rfl
    refine ⟨by rw [run], by simp only [groupEvents, found], fun _ _ _ isFound => ?_⟩
    cases isFound
    rw [run]

/-- Loading a group calls its loader unless that was done before. If there is such a group, then it
is loaded with the result. -/
theorem reflects_loadGroup (reflects : session.batches.Reflects history)
    (settled : ∀ number, ¬session.batches.IsLoading number) :
    (loadGroup code group session).2.batches.Reflects (history ++ groupEvents code group session) ∧
      (∀ number, ¬(loadGroup code group session).2.batches.IsLoading number) ∧
      ∀ found, (loadGroup code group session).2.batches.groups[group]? = some found →
        found.stage = .loaded (loadGroup code group session).1 := by
  by_cases collects : ∃ key loader inputs,
      session.batches.groups[group]? = some ⟨key, loader, .collecting inputs⟩
  · rcases collects with ⟨key, loader, inputs, found⟩
    let calling := { session with batches := session.batches.setStage group .loading }
    let done := perform (code.load loader inputs) calling
    have called := reflects.call found
    have isCalling : calling.batches.groups[group]? = some ⟨key, loader, .loading⟩ := by
      rw [BatchTable.getElem?_setStage, if_pos rfl, found]
      rfl
    let past := history ++ [.called group key loader inputs] ++
      performEvents (code.load loader inputs) calling
    have performed : done.2.batches.Reflects past := reflects_perform (code.load loader inputs) called
    have isLoading : done.2.batches.groups[group]? = some ⟨key, loader, .loading⟩ :=
      (getElem?_perform_loading _ _).mpr isCalling
    have follows : (BatchEvent.finished group done.1).Follows past :=
      ⟨history, key, loader, inputs, enqueued (code.load loader inputs) calling,
        List.append_assoc _ _ _⟩
    have inputs_eq : inputs.length = (past.members group).length := by
      have isCalled : .called group key loader ((past.members group).map Enqueued.input) ∈ past :=
        (performed.groups group _ isLoading).stage
      have isHere : .called group key loader inputs ∈ past :=
        List.mem_append_left _ (List.mem_append_right _ (List.mem_singleton_self _))
      rw [(performed.lawful.called_unique isHere isCalled).2.2, List.length_map]
    have finished := performed.finish isLoading follows
    rw [← inputs_eq] at finished
    have events : history ++ groupEvents code group session = past ++ [.finished group done.1] := by
      simp only [groupEvents, found, past, List.append_assoc, List.cons_append, List.nil_append]
      rfl
    rw [loadGroup_of_collecting found, events]
    refine ⟨?_, ?_, ?_⟩
    · exact finished
    · rintro number ⟨other, opener, isOther⟩
      rw [BatchTable.getElem?_setStage] at isOther
      split at isOther
      next same =>
        rw [← same, isLoading] at isOther
        cases isOther
      next differs =>
        rw [getElem?_perform_loading, BatchTable.getElem?_setStage, if_neg differs] at isOther
        exact settled number ⟨other, opener, isOther⟩
    · intro loaded isLoaded
      rw [BatchTable.getElem?_setStage, if_pos rfl, isLoading] at isLoaded
      cases isLoaded
      rfl
  · have isDone : ∀ found inputs, session.batches.groups[group]? = some found →
        found.stage ≠ .collecting inputs := by
      rintro ⟨key, loader, stage⟩ inputs found rfl
      exact collects ⟨key, loader, inputs, found⟩
    rcases @loadGroup_of_not_collecting _ code _ _ isDone with ⟨same, events, result⟩
    rw [same, events, List.append_nil]
    refine ⟨reflects, settled, ?_⟩
    rintro ⟨key, loader, inputs | _ | loaded⟩ found
    · exact absurd rfl (isDone _ inputs found)
    · exact absurd ⟨key, loader, found⟩ (settled group)
    · rw [result key loader loaded found]

/-- The value of a member among those of its group. -/
def partOf (member : BatchMember) : host.BatchResult → host.Result
  | .error error => .error error
  | .ok values =>
      match values[member.index]? with
      | some value => .ok value
      | none => .error (.internal "batch result out of range")

theorem load_eq (member : BatchMember) :
    load code member session =
      (partOf member (loadGroup code member.group session).1,
        (loadGroup code member.group session).2) := by
  simp only [load, bind, StateT.bind]
  rcases loadGroup code member.group session with ⟨error | values, after⟩
  · rfl
  · simp only [partOf]
    cases values[member.index]? with
    | none => rfl
    | some value => rfl

theorem share_eq (member : BatchMember) (inputs : Nat) (answer : host.BatchResult) :
    member.share inputs answer = partOf member (checkedBatch member.key inputs answer) := by
  cases answer with
  | error error => rfl
  | ok values =>
      simp only [BatchMember.share, checkedBatch, bind, Except.bind]
      split <;> rfl

/-- Asking for the result of a member. -/
theorem reflects_load (reflects : session.batches.Reflects history)
    (settled : ∀ number, ¬session.batches.IsLoading number) (member : BatchMember) :
    (load code member session).2.batches.Reflects (history ++ loadEvents code member session) ∧
      ∀ number, ¬(load code member session).2.batches.IsLoading number := by
  rcases @reflects_loadGroup _ code member.group _ _ reflects settled with
    ⟨reflected, stillSettled, loaded⟩
  rw [loadEvents, ← List.append_assoc, load_eq]
  refine ⟨reflected.snoc_of_same ?_ rfl rfl fun _ _ => rfl, stillSettled⟩
  rintro entry isEntry rfl
  rcases found : (loadGroup code entry.member.group session).2.batches.groups[entry.member.group]?
    with _ | group
  · have isMember := BatchHistory.mem_members.mpr ⟨isEntry, rfl⟩
    rw [(reflected.fresh _ found).1] at isMember
    cases isMember
  · have isMember := BatchHistory.mem_members.mpr ⟨isEntry, rfl⟩
    have isLoaded := loaded group found
    have reflects := reflected.groups _ group found
    rcases group with ⟨key, loader, stage⟩
    cases isLoaded
    rcases reflects.stage with ⟨isCalled, answer, isFinished, result⟩
    have keyed : entry.member.key = key := reflects.keyed entry isMember
    refine ⟨loader, _, answer, keyed ▸ isCalled, isFinished, ?_, ?_⟩
    · rw [List.getElem?_map, reflected.lawful.getElem?_members isEntry]
      rfl
    · rw [share_eq, List.length_map, keyed, result]

end

end Session

/-! ## Steps -/

/-- A step on the batches of a session. -/
inductive BatchStep (host : Host) where
  | enqueue (key : String) (input : Json) (loader : host.Work)
  | load (member : BatchMember)
  | count (key : String)

namespace BatchStep

/-- The session after a step. -/
def run (code : HostCode host) : BatchStep host → Session host → Session host
  | enqueue key input loader, session =>
      { session with batches := (session.batches.enqueue key input loader).2 }
  | load member, session => (Session.load code member session).2
  | count _, session => session

/-- What a step does with batches, with the answer that it gets. -/
def events (code : HostCode host) : BatchStep host → Session host → BatchHistory host
  | enqueue key input loader, session =>
      [.joined ⟨(session.batches.enqueue key input loader).1, input, loader⟩]
  | load member, session => Session.loadEvents code member session
  | count key, session => [.counted key (session.batches.waiting key)]

end BatchStep

/-- What some steps do with batches, one after the other. -/
def Session.history (code : HostCode host) : List (BatchStep host) → Session host →
    BatchHistory host
  | [], _ => []
  | step :: rest, session => step.events code session ++ history code rest (step.run code session)

/-- The session without any batches. -/
def Session.withoutBatches (session : Session host) : Session host :=
  { session with batches := {} }

/-- After every call the loader answers, and the member that was asked for gets its result; until
then only the loader itself enqueues anything. -/
def BatchHistory.IsSettled (history : BatchHistory host) : Prop :=
  ∀ (past : BatchHistory host) (group : Nat) (key : String) (loader : host.Work)
      (inputs : List Json) (future : BatchHistory host),
    history = past ++ .called group key loader inputs :: future →
    ∃ (joins : List (Enqueued host)) (answer : host.BatchResult) (member : BatchMember)
      (result : host.Result) (rest : BatchHistory host),
      future = joins.map .joined ++ .finished group answer :: .loaded member result :: rest ∧
        member.group = group

namespace BatchHistory

variable {history block : BatchHistory host}

theorem IsSettled.nil : IsSettled ([] : BatchHistory host) := by
  intro past group key loader inputs future split
  simp at split

theorem IsSettled.append {first second : BatchHistory host} (before : first.IsSettled)
    (after : second.IsSettled) : IsSettled (first ++ second) := by
  intro past group key loader inputs future split
  rcases List.append_eq_append_iff.mp split with ⟨between, _, further⟩ | ⟨between, isFirst, further⟩
  · exact after between group key loader inputs future further
  · cases between with
    | nil => exact after [] group key loader inputs future further.symm
    | cons event rest =>
        rcases List.cons_eq_cons.mp further with ⟨rfl, rfl⟩
        rcases before past group key loader inputs rest isFirst with
          ⟨joins, answer, member, result, last, rfl, same⟩
        exact ⟨joins, answer, member, result, last ++ second, by simp, same⟩

/-- Where no loader is called nothing is to be settled. -/
theorem IsSettled.of_calledGroups (empty : history.calledGroups = []) : history.IsSettled := by
  rintro past group key loader inputs future rfl
  have isCalled : group ∈ calledGroups (past ++ .called group key loader inputs :: future) :=
    mem_calledGroups.mpr ⟨key, loader, inputs, by simp⟩
  rw [empty] at isCalled
  cases isCalled

end BatchHistory

/-- A call is settled by the answer and the result that follow it. -/
theorem BatchHistory.IsSettled.call (key : String) (loader : host.Work) (inputs : List Json)
    (joins : List (Enqueued host)) (answer : host.BatchResult) (member : BatchMember)
    (result : host.Result) :
    BatchHistory.IsSettled (.called member.group key loader inputs ::
      (joins.map .joined ++ [.finished member.group answer, .loaded member result])) := by
  intro past group other opener others future split
  cases past with
  | nil =>
      rcases List.cons_eq_cons.mp split with ⟨same, rfl⟩
      cases same
      exact ⟨joins, answer, member, result, [], rfl, rfl⟩
  | cons first past =>
      -- After the first event no loader is called.
      rcases List.cons_eq_cons.mp split with ⟨_, rest⟩
      have isCalled : group ∈ calledGroups
          (past ++ .called group other opener others :: future) :=
        mem_calledGroups.mpr ⟨other, opener, others, by simp⟩
      rw [← List.append_eq, ← rest, calledGroups_append, calledGroups_joined] at isCalled
      cases isCalled

/-- What a member is asked for is settled when it has its result. -/
theorem Session.isSettled_loadEvents (code : HostCode host) (member : BatchMember)
    (session : Session host) : (loadEvents code member session).IsSettled := by
  unfold loadEvents groupEvents
  split
  next key loader inputs found =>
    have settled := BatchHistory.IsSettled.call key loader inputs
      (enqueued (code.load loader inputs)
        { session with batches := session.batches.setStage member.group .loading })
      (perform (code.load loader inputs)
        { session with batches := session.batches.setStage member.group .loading }).1 member
      (load code member session).1
    simpa only [performEvents, List.cons_append, List.append_assoc, List.nil_append] using settled
  next => exact .of_calledGroups rfl

namespace BatchStep

variable {code : HostCode host} {session : Session host} {history : BatchHistory host}

theorem isSettled_events (step : BatchStep host) : (step.events code session).IsSettled := by
  cases step with
  | enqueue key input loader => exact .of_calledGroups rfl
  | load member => exact Session.isSettled_loadEvents code member session
  | count key => exact .of_calledGroups rfl

/-- A step makes what has to follow. -/
theorem reflects_run (step : BatchStep host) (reflects : session.batches.Reflects history)
    (settled : ∀ number, ¬session.batches.IsLoading number) :
    (step.run code session).batches.Reflects (history ++ step.events code session) ∧
      ∀ number, ¬(step.run code session).batches.IsLoading number := by
  cases step with
  | enqueue key input loader =>
      refine ⟨reflects.enqueue key input loader, ?_⟩
      rintro number ⟨other, opener, isLoading⟩
      exact settled number
        ⟨other, opener, (BatchTable.getElem?_enqueue_loading key input loader).mp isLoading⟩
  | load member => exact Session.reflects_load reflects settled member
  | count key => exact ⟨reflects.snoc_of_same reflects.waiting_eq rfl rfl fun _ _ => rfl, settled⟩

end BatchStep

namespace Session

variable {code : HostCode host} {session : Session host} {history : BatchHistory host}

/-- Some steps make what has to follow. -/
theorem exists_reflects_history (steps : List (BatchStep host))
    (reflects : session.batches.Reflects history)
    (settled : ∀ number, ¬session.batches.IsLoading number) :
    ∃ after : Session host, after.batches.Reflects (history ++ session.history code steps) ∧
      ∀ number, ¬after.batches.IsLoading number := by
  induction steps generalizing session history with
  | nil => exact ⟨session, (List.append_nil history).symm ▸ reflects, settled⟩
  | cons step rest ih =>
      rcases step.reflects_run reflects settled with ⟨further, stillSettled⟩
      rcases ih further stillSettled with ⟨after, last, isSettled⟩
      exact ⟨after, by rwa [List.append_assoc] at last, isSettled⟩

theorem isSettled_history (steps : List (BatchStep host)) :
    (session.history code steps).IsSettled := by
  induction steps generalizing session with
  | nil => exact .nil
  | cons step rest ih => exact step.isSettled_events.append ih

theorem reflects_withoutBatches (session : Session host) :
    session.withoutBatches.batches.Reflects [] where
  lawful := .nil
  groups number found isFound := by cases isFound
  fresh number _ := ⟨rfl, by simp [BatchHistory.calledGroups]⟩
  latest key number isLatest := by cases isLatest
  collecting number found inputs isFound := by cases isFound
  idle key _ := rfl

theorem not_isLoading_withoutBatches (session : Session host) (number : Nat) :
    ¬session.withoutBatches.batches.IsLoading number := by
  rintro ⟨key, loader, isFound⟩
  cases isFound

end Session

namespace BatchTable.Reflects

variable {table : BatchTable host.Work host.Value} {history : BatchHistory host}

/-- No input joins a group after its loader was called. -/
theorem members_after_called (reflects : table.Reflects history) {past future : BatchHistory host}
    {group : Nat} {key : String} {loader : host.Work} {inputs : List Json}
    (split : history = past ++ .called group key loader inputs :: future) :
    BatchHistory.members (.called group key loader inputs :: future) group = [] := by
  have isCalled : .called group key loader inputs ∈ history := by simp [split]
  have isKnown := BatchHistory.mem_calledGroups.mpr ⟨key, loader, inputs, isCalled⟩
  have inputs_eq : inputs = (history.members group).map Enqueued.input := by
    rcases found : table.groups[group]? with _ | ⟨other, opener, stage⟩
    · exact absurd isKnown (reflects.fresh group found).2
    · have stages := (reflects.groups group _ found).stage
      cases stage with
      | collecting collected => exact absurd isKnown stages.1
      | loading => exact (reflects.lawful.called_unique isCalled stages).2.2
      | loaded result => exact (reflects.lawful.called_unique isCalled stages.1).2.2
  rcases reflects.lawful _ _ _ split with ⟨_, waits, collected, _⟩
  have lengths := congrArg List.length (collected.trans inputs_eq)
  rw [split, BatchHistory.members_append, waits, List.length_map, List.length_map,
    List.length_append] at lengths
  exact List.length_eq_zero_iff.mp (by omega)

/-- When a loader was called its group had all inputs that it ever has. -/
theorem members_eq_of_called (reflects : table.Reflects history) {past future : BatchHistory host}
    {group : Nat} {key : String} {loader : host.Work} {inputs : List Json}
    (split : history = past ++ .called group key loader inputs :: future) :
    history.members group = past.waiting key := by
  have after := reflects.members_after_called split
  rcases reflects.lawful _ _ _ split with ⟨_, waits, _⟩
  rw [split, BatchHistory.members_append, after, List.append_nil, waits]

end BatchTable.Reflects

/-- Whatever is done with the batches of a session, everything follows what was before, and after
every call of a loader comes its answer and the result of the member that was asked for. No two
inputs become the same member, and a member is found in its group at its index. No loader is called
twice for a group; when it is called, no member of the group has been asked for, and the group has
what waits under the key, which is all that it ever has. -/
theorem Session.calls_each_loader_once (code : HostCode host) (session : Session host)
    (steps : List (BatchStep host)) :
    let history := session.withoutBatches.history code steps
    history.IsLawful ∧ history.IsSettled ∧ (history.entries.map Enqueued.member).Nodup ∧
      (∀ entry ∈ history.entries,
        (history.members entry.member.group)[entry.member.index]? = some entry) ∧
      history.calledGroups.Nodup ∧
      ∀ (past : BatchHistory host) group key loader inputs future,
        history = past ++ .called group key loader inputs :: future →
          (∀ member : BatchMember, past.IsLoaded member → member.group ≠ group) ∧
            history.members group = past.waiting key := by
  intro history
  rcases Session.exists_reflects_history steps session.reflects_withoutBatches
    session.not_isLoading_withoutBatches with ⟨after, reflects, _⟩
  have lawful : history.IsLawful := reflects.lawful
  refine ⟨lawful, Session.isSettled_history steps, lawful.nodup_members,
    fun entry isEntry => lawful.getElem?_members isEntry, lawful.nodup_calledGroups, ?_⟩
  intro past group key loader inputs future split
  refine ⟨?_, reflects.members_eq_of_called split⟩
  rintro member loaded rfl
  exact (lawful _ _ _ split).1
    ((split ▸ lawful).of_append.mem_calledGroups_of_isLoaded loaded)

namespace EchoingLoader

def echo : Host where
  Object := Empty
  kind := Empty.elim
  Work := Unit
  State := Unit

/-- Every input is its own result. -/
def code : HostCode echo where
  answer _ := .done (.ok .null)
  compute _ := .done .null
  load _ inputs := .done (.ok (inputs.map .ofJson))

def steps : List (BatchStep echo) :=
  [.enqueue "key" (.string "first") Unit.unit, .enqueue "key" (.string "second") Unit.unit,
    .load ⟨"key", 0, 1⟩, .enqueue "key" (.string "third") Unit.unit, .load ⟨"key", 0, 0⟩, .count "key"]

example :
    let history := Session.history code steps ({ state := Unit.unit } : Session echo)
    history.calledGroups = [0] ∧
      history.entries.map Enqueued.member = [⟨"key", 0, 0⟩, ⟨"key", 0, 1⟩, ⟨"key", 1, 0⟩] ∧
      history.getLast? = some (.counted "key" 1) := by
  refine ⟨?_, ?_, rfl⟩ <;> decide +kernel

end EchoingLoader

end GraphQL

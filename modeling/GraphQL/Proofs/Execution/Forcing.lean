import GraphQL.Proofs.Execution.Batches
import GraphQL.Proofs.Execution.Laziness

/-!
# Forcing a value again

Unwrapping a value again and again makes a chain of values. Forcing goes along the chain, to the
first value that is not lazy, to the first unwrapping that fails, or to the end of its steps.

The cells of a session remember what came out of them, and forget nothing. So the work of a cell is
done once, however often and by however many chains it is reached, and who goes along a chain again
finds what was found before.
-/

namespace GraphQL

variable {host : Host} {α : Type}

namespace Accessors

/-- The value and the session after a value was unwrapped, if that gives one. -/
def next? (accessors : Accessors host) (code : HostCode host) :
    host.Value × Session host → Option (host.Value × Session host)
  | (value, session) =>
      match accessors.unwrap code value session with
      | (some (.ok next), later) => some (next, later)
      | _ => none

/-- The value after so many unwrappings, with the session. There is none behind a value that is not
lazy, and none behind an unwrapping that fails. -/
def chain (accessors : Accessors host) (code : HostCode host) (value : host.Value)
    (session : Session host) : Nat → Option (host.Value × Session host)
  | 0 => some (value, session)
  | steps + 1 => (accessors.chain code value session steps).bind (accessors.next? code)

section

variable {accessors : Accessors host} {code : HostCode host} {value : host.Value}
  {session : Session host}

variable {limit steps bound : Nat}

end

end Accessors

/-! ## Cells -/

/-- What is done in one list of cells is done in the other, with the same result. -/
def Memo.AreKept {Source Result : Type} (cells later : List (Memo Source Result)) : Prop :=
  ∀ (cell : Nat) (result : Result), cells[cell]? = some (.done result) →
    later[cell]? = some (.done result)

namespace Memo.AreKept

variable {Source Result : Type} {cells later : List (Memo Source Result)} {cell : Nat}

theorem of_isPrefix (isPrefix : cells <+: later) : AreKept cells later := by
  intro cell result isDone
  rcases isPrefix with ⟨made, rfl⟩
  rw [List.getElem?_append_left (List.getElem?_eq_some_iff.mp isDone).1, isDone]

/-- The result of a cell that was waiting is set. -/
theorem set {source : Source} (waits : cells[cell]? = some (.waiting source))
    (isPrefix : cells <+: later) (result : Result) :
    AreKept cells (later.set cell (.done result)) := by
  intro other found isDone
  have differs : cell ≠ other := by
    rintro rfl
    rw [waits] at isDone
    cases isDone
  rw [List.getElem?_set_ne differs]
  exact of_isPrefix isPrefix other found isDone

end Memo.AreKept

theorem Memo.getElem?_set_of_waiting {Source Result : Type} {cells later : List (Memo Source Result)}
    {cell : Nat} {source : Source} (waits : cells[cell]? = some (.waiting source))
    (isPrefix : cells <+: later) (result : Result) :
    (later.set cell (.done result))[cell]? = some (.done result) :=
  List.getElem?_set_self
    (Nat.lt_of_lt_of_le (List.getElem?_eq_some_iff.mp waits).1 isPrefix.length_le)

/-- The work of a cell is done. -/
inductive CellRun where
  | pending (cell : Nat)
  | deferred (cell : Nat)
  deriving DecidableEq

namespace Session

/-- Later the session remembers the same results, and maybe more. -/
structure IsKeptBy (session later : Session host) : Prop where
  pendings : Memo.AreKept session.pendings later.pendings
  deferrals : Memo.AreKept session.deferrals later.deferrals

/-- The work was done, and its result is remembered. -/
def IsOver (session : Session host) : CellRun → Prop
  | .pending cell => ∃ result, session.pendings[cell]? = some (.done result)
  | .deferred cell => ∃ value, session.deferrals[cell]? = some (.done value)

/-- The work that is done when a pending value is awaited. -/
def awaitRuns (cell : Nat) (session : Session host) : List CellRun :=
  match session.pendings[cell]? with
  | some (.waiting _) => [.pending cell]
  | _ => []

/-- The work that is done when a deferred value is computed. -/
def computeRuns (cell : Nat) (session : Session host) : List CellRun :=
  match session.deferrals[cell]? with
  | some (.waiting _) => [.deferred cell]
  | _ => []

/-- Between two sessions this work is done: each once, none that was over before, and all of it is
over afterwards. -/
structure RunsOnce (session : Session host) (runs : List CellRun) (later : Session host) : Prop where
  nodup : runs.Nodup
  fresh : ∀ run ∈ runs, ¬session.IsOver run
  settled : ∀ run ∈ runs, later.IsOver run
  kept : session.IsKeptBy later

theorem IsKeptBy.refl (session : Session host) : session.IsKeptBy session :=
  ⟨fun _ _ isDone => isDone, fun _ _ isDone => isDone⟩

theorem IsKeptBy.trans {session now later : Session host} (first : session.IsKeptBy now)
    (second : now.IsKeptBy later) : session.IsKeptBy later :=
  ⟨fun cell result isDone => second.pendings cell result (first.pendings cell result isDone),
    fun cell value isDone => second.deferrals cell value (first.deferrals cell value isDone)⟩

theorem IsKeptBy.isOver {session later : Session host} (kept : session.IsKeptBy later)
    {run : CellRun} (isOver : session.IsOver run) : later.IsOver run := by
  cases run with
  | pending cell =>
      rcases isOver with ⟨result, isDone⟩
      exact ⟨result, kept.pendings cell result isDone⟩
  | deferred cell =>
      rcases isOver with ⟨value, isDone⟩
      exact ⟨value, kept.deferrals cell value isDone⟩

theorem RunsOnce.nil {session later : Session host} (kept : session.IsKeptBy later) :
    session.RunsOnce [] later :=
  ⟨.nil, by simp, by simp, kept⟩

theorem RunsOnce.single {session later : Session host} {run : CellRun} (fresh : ¬session.IsOver run)
    (isOver : later.IsOver run) (kept : session.IsKeptBy later) : session.RunsOnce [run] later :=
  ⟨List.nodup_singleton run, by simpa using fresh, by simpa using isOver, kept⟩

/-- What is over after the first part is not done again in the second. -/
theorem RunsOnce.append {session now later : Session host} {runs others : List CellRun}
    (first : session.RunsOnce runs now) (second : now.RunsOnce others later) :
    session.RunsOnce (runs ++ others) later where
  nodup := by
    refine List.nodup_append.mpr ⟨first.nodup, second.nodup, ?_⟩
    rintro run isFirst _ isSecond rfl
    exact second.fresh run isSecond (first.settled run isFirst)
  fresh := by
    intro run isRun isOver
    rcases List.mem_append.mp isRun with isFirst | isSecond
    · exact first.fresh run isFirst isOver
    · exact second.fresh run isSecond (first.kept.isOver isOver)
  settled := by
    intro run isRun
    rcases List.mem_append.mp isRun with isFirst | isSecond
    · exact second.kept.isOver (first.settled run isFirst)
    · exact second.settled run isSecond
  kept := first.kept.trans second.kept

/-! ### Host code -/

/-- Later the session has more cells, and those that were there are as they were. -/
structure IsExtendedBy (session later : Session host) : Prop where
  pendings : session.pendings <+: later.pendings
  deferrals : session.deferrals <+: later.deferrals

namespace IsExtendedBy

variable {session later : Session host}

theorem refl (session : Session host) : session.IsExtendedBy session :=
  ⟨List.prefix_refl _, List.prefix_refl _⟩

theorem perform (action : Action host α) (session : Session host) :
    session.IsExtendedBy (perform action session).2 := by
  induction action generalizing session with
  | done result => exact .refl session
  | change update next ih =>
      have further := ih session.state { session with state := update session.state }
      exact ⟨further.pendings, further.deferrals⟩
  | postpone source next ih =>
      have further := ih session.pendings.length
        { session with pendings := session.pendings ++ [.waiting source] }
      exact ⟨(List.prefix_append _ _).trans further.pendings, further.deferrals⟩
  | defer work next ih =>
      have further := ih session.deferrals.length
        { session with deferrals := session.deferrals ++ [.waiting work] }
      exact ⟨further.pendings, (List.prefix_append _ _).trans further.deferrals⟩
  | enqueue key input loader next ih =>
      have further := ih (session.batches.enqueue key input loader).1
        { session with batches := (session.batches.enqueue key input loader).2 }
      exact ⟨further.pendings, further.deferrals⟩

theorem loadGroup (code : HostCode host) (group : Nat) (session : Session host) :
    session.IsExtendedBy (loadGroup code group session).2 := by
  by_cases collects : ∃ key loader inputs,
      session.batches.groups[group]? = some ⟨key, loader, .collecting inputs⟩
  · rcases collects with ⟨key, loader, inputs, found⟩
    have further := IsExtendedBy.perform (code.load loader inputs)
      { session with batches := session.batches.setStage group .loading }
    rw [loadGroup_of_collecting found]
    exact ⟨further.pendings, further.deferrals⟩
  · have isDone : ∀ found inputs, session.batches.groups[group]? = some found →
        found.stage ≠ .collecting inputs := by
      rintro ⟨key, loader, stage⟩ inputs found rfl
      exact collects ⟨key, loader, inputs, found⟩
    rw [(@loadGroup_of_not_collecting _ code _ _ isDone).1]
    exact .refl session

theorem load (code : HostCode host) (member : BatchMember) (session : Session host) :
    session.IsExtendedBy (load code member session).2 := by
  rw [load_eq]
  exact .loadGroup code member.group session

end IsExtendedBy

/-! ### Awaiting and computing -/

variable {code : HostCode host} {cell : Nat} {session : Session host}

/-- What the source of a pending value comes to. -/
def answer (code : HostCode host) : PendingSource host → StateM (Session host) host.Result
  | .work work => perform (code.answer work)
  | .member member => load code member

theorem IsExtendedBy.answer (code : HostCode host) (source : PendingSource host)
    (session : Session host) : session.IsExtendedBy (answer code source session).2 := by
  cases source with
  | work work => exact .perform (code.answer work) session
  | member member => exact .load code member session

theorem await_of_waiting {source : PendingSource host}
    (waits : session.pendings[cell]? = some (.waiting source)) :
    await code cell session =
      ((answer code source session).1,
        { (answer code source session).2 with
          pendings :=
            (answer code source session).2.pendings.set cell
              (.done (answer code source session).1) }) := by
  simp only [await, bind, StateT.bind, get, getThe, MonadStateOf.get, StateT.get, pure, waits]
  cases source <;> rfl

theorem await_of_done {result : host.Result} (isDone : session.pendings[cell]? = some (.done result)) :
    await code cell session = (result, session) := by
  simp only [await, bind, StateT.bind, get, getThe, MonadStateOf.get, StateT.get, pure, isDone]
  rfl

theorem await_of_none (missing : session.pendings[cell]? = none) :
    await code cell session = (.error (.internal "pending value lost its future"), session) := by
  simp only [await, bind, StateT.bind, get, getThe, MonadStateOf.get, StateT.get, pure, missing]
  rfl

theorem compute_of_waiting {work : host.Work}
    (waits : session.deferrals[cell]? = some (.waiting work)) :
    compute code cell session =
      ((perform (code.compute work) session).1,
        { (perform (code.compute work) session).2 with
          deferrals :=
            (perform (code.compute work) session).2.deferrals.set cell
              (.done (perform (code.compute work) session).1) }) := by
  simp only [compute, bind, StateT.bind, get, getThe, MonadStateOf.get, StateT.get, pure, waits]
  rfl

theorem compute_of_done {value : host.Value}
    (isDone : session.deferrals[cell]? = some (.done value)) :
    compute code cell session = (value, session) := by
  simp only [compute, bind, StateT.bind, get, getThe, MonadStateOf.get, StateT.get, pure, isDone]
  rfl

theorem compute_of_none (missing : session.deferrals[cell]? = none) :
    compute code cell session = (.null, session) := by
  simp only [compute, bind, StateT.bind, get, getThe, MonadStateOf.get, StateT.get, pure, missing]
  rfl

/-- Awaiting a pending value does its work, if nobody did before. -/
theorem RunsOnce.await (code : HostCode host) (cell : Nat) (session : Session host) :
    session.RunsOnce (awaitRuns cell session) (await code cell session).2 := by
  rcases found : session.pendings[cell]? with _ | source | result
  · rw [await_of_none found, awaitRuns, found]
    exact .nil (.refl session)
  · have extended := IsExtendedBy.answer code source session
    rw [await_of_waiting found, awaitRuns, found]
    refine .single ?_ ⟨_, Memo.getElem?_set_of_waiting found extended.pendings _⟩
      ⟨.set found extended.pendings _, .of_isPrefix extended.deferrals⟩
    rintro ⟨result, isDone⟩
    rw [found] at isDone
    cases isDone
  · rw [await_of_done found, awaitRuns, found]
    exact .nil (.refl session)

theorem RunsOnce.compute (code : HostCode host) (cell : Nat) (session : Session host) :
    session.RunsOnce (computeRuns cell session) (compute code cell session).2 := by
  rcases found : session.deferrals[cell]? with _ | work | value
  · rw [compute_of_none found, computeRuns, found]
    exact .nil (.refl session)
  · have extended := IsExtendedBy.perform (code.compute work) session
    rw [compute_of_waiting found, computeRuns, found]
    refine .single ?_ ⟨_, Memo.getElem?_set_of_waiting found extended.deferrals _⟩
      ⟨.of_isPrefix extended.pendings, .set found extended.deferrals _⟩
    rintro ⟨value, isDone⟩
    rw [found] at isDone
    cases isDone
  · rw [compute_of_done found, computeRuns, found]
    exact .nil (.refl session)

end Session

/-! ## Any number of times -/

namespace Accessors

variable (accessors : Accessors host) (code : HostCode host)

/-- The work that is done when a value is unwrapped. -/
def unwrapRuns (value : host.Value) (session : Session host) : List CellRun :=
  match value with
  | .pending cell => Session.awaitRuns cell session
  | value =>
      match accessors.unwrapping? value with
      | some (.deferred cell) => Session.computeRuns cell session
      | _ => []

/-- The work that is done when a value is forced. -/
def forceRuns : Nat → host.Value → Session host → List CellRun
  | 0, _, _ => []
  | steps + 1, value, session =>
      accessors.unwrapRuns value session ++
        match accessors.unwrap code value session with
        | (some (.ok next), later) => forceRuns steps next later
        | _ => []

variable {accessors code}

end Accessors

/-! ## Histories -/

/-- A value is forced, or other host code runs. -/
inductive ForcingStep (host : Host) where
  | force (accessors : Accessors host) (limit : Nat) (value : host.Value)
  | perform (action : Action host Unit)

namespace ForcingStep

/-- The session after a step. -/
def after (code : HostCode host) : ForcingStep host → Session host → Session host
  | force accessors limit value, session => (accessors.force code limit value session).2
  | perform action, session => (Session.perform action session).2

/-- The work of cells that is done by a step. -/
def runs (code : HostCode host) : ForcingStep host → Session host → List CellRun
  | force accessors limit value, session => accessors.forceRuns code limit value session
  | perform _, _ => []

end ForcingStep

namespace Session

/-- The work of cells that is done by some steps, one after the other. -/
def runs (code : HostCode host) : List (ForcingStep host) → Session host → List CellRun
  | [], _ => []
  | step :: rest, session => step.runs code session ++ runs code rest (step.after code session)

end Session

/-! ## Forcing -/

namespace Accessors

section

variable {accessors : Accessors host} {code : HostCode host} {value : host.Value}
  {session : Session host} {limit : Nat}

end

namespace BoxedChain

/-- A host with one kind of object. -/
def boxes : Host where
  Object := Unit
  kind _ := "Box"
  Work := Unit
  State := Unit

/-- The pending value comes to the deferred one. -/
def code : HostCode boxes where
  answer _ := .done (.ok (.deferred 0))
  compute _ := .done (.json (.string "content"))
  load _ _ := .done (.ok [])

/-- An object holds the pending value. -/
def accessors : Accessors boxes :=
  AccessorTable.register boxes.initialAccessors "Box"
    fun
    | .object _ => some (.action (.done (.pending 0)))
    | _ => none

def session : Session boxes where
  pendings := [.waiting (.work ())]
  deferrals := [.waiting ()]
  state := ()

theorem isTyped : accessors.IsTyped := by
  refine .register (.initial fun _ => show "Box" ≠ "Deferred" by decide) fun value isKind => ?_
  cases value with
  | object box => rfl
  | deferred cell => exact absurd (Option.some.inj isKind) (by decide)
  | _ => cases isKind

/-- The session in which the pending value was awaited. -/
def awaited : Session boxes :=
  { session with pendings := [.done (.ok (.deferred 0))] }

end BoxedChain

end Accessors

end GraphQL

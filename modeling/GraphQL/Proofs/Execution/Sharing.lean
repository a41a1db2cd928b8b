import GraphQL.Proofs.Execution.Correctness
import GraphQL.Proofs.Execution.Journals

/-!
# Sharing batches

A round of an execution resolves fields and then forces the values that wait. If only resolvers
enqueue inputs, nothing is loaded while fields are resolved and nothing is enqueued while values are
forced. So what is enqueued under one key in a round is in one group, and forcing the round calls at
most one loader for the key, with all of that. The fields of a mutation take turns, each in rounds
of its own, and what is forced in two turns is not of one group.
-/

namespace GraphQL

variable {host : Host} {σ Object : Type}

/-! ## Histories of a round -/

namespace BatchHistory

variable {past loads : BatchHistory host}

end BatchHistory

/-- What waits under a key is in one group, whose loader has not been called. -/
theorem BatchTable.Reflects.exists_group {table : BatchTable host.Work host.Value}
    {history : BatchHistory host} (reflects : table.Reflects history) (key : String)
    (waits : history.waiting key ≠ []) :
    ∃ number, number ∉ history.calledGroups ∧
      ∀ entry ∈ history.waiting key, entry.member.group = number := by
  rcases isOpen : table.openGroup? key with _ | ⟨number, inputs⟩
  · exact absurd (reflects.idle key isOpen) waits
  · rcases reflects.of_open isOpen with ⟨loader, found, members, _⟩
    refine ⟨number, (reflects.groups number _ found).stage.1, ?_⟩
    intro entry isWaiting
    rw [← members] at isWaiting
    exact (BatchHistory.mem_members.mp isWaiting).2

/-! ## Rounds -/

/-- How things stand when a round begins, when its fields are resolved, and when its values are
forced. -/
structure Round (σ : Type) where
  opened : σ
  resolved : σ
  forced : σ

/-- How things stand when a field of the root has its turn, and when it is settled, with the rounds
in between. -/
structure Turn (σ : Type) where
  node : PlanNode
  opened : σ
  closed : σ
  rounds : List (Round σ)

/-- Everything begins where the one before it ends. -/
def IsChain : σ → List (σ × σ) → σ → Prop
  | start, [], final => start = final
  | start, (opened, closed) :: rest, final => opened = start ∧ IsChain closed rest final

def Round.ends (round : Round σ) : σ × σ :=
  (round.opened, round.forced)

def Turn.ends (turn : Turn σ) : σ × σ :=
  (turn.opened, turn.closed)

namespace Environment

variable (env : Environment σ Object)

/-- The rounds of settling a tree. The fields of the first one are resolved. -/
def settleRounds : Nat → ResponseTree → σ → Progress σ Object → List (Round σ)
  | 0, _, opened, progress => [⟨opened, progress.outside, progress.outside⟩]
  | rounds + 1, tree, opened, progress =>
      if progress.queue.isEmpty then [⟨opened, progress.outside, progress.outside⟩]
      else
        let (answers, forced) := env.forceAll
          (progress.queue.filter fun task => tree.isLive task.path) { progress with queue := [] }
        let (finished, further) := env.finishAll tree answers forced
        ⟨opened, progress.outside, forced.outside⟩ ::
          settleRounds rounds finished forced.outside further

/-- The rounds of executing the fields of the root together. -/
def rounds (children : PlanChildren) (root : ResolvedValue Object) (start : Progress σ Object) :
    List (Round σ) :=
  let (fields, resolved) := env.executeFields children root [] start
  env.settleRounds (PlanNode.childrenPlaces children) ((fields.map .object).getD .null)
    start.outside resolved

/-- The turns of executing the fields of the root one after the other. -/
def turns (bound : Nat) (root : ResolvedValue Object) :
    List (String × PlanNode) → ResponseTree → Progress σ Object → List (Turn σ)
  | [], _, _ => []
  | (_, node) :: rest, tree, progress =>
      if !tree.isLive [] then []
      else if !node.isIncluded env.bindings then turns bound root rest tree progress
      else
        let (result, resolved) := env.executeField node root [.field node.responseKey] progress
        let tree := addField tree node.responseKey (!node.returnType.isNonNull) result
        let (settled, further) := env.settle bound tree resolved
        ⟨node, progress.outside, further.outside,
            env.settleRounds bound tree progress.outside resolved⟩ ::
          turns bound root rest settled further

/-- Resolving fields leads from a state to a state in one relation to it, forcing values in another
one. -/
structure Advances (resolves forces : σ → σ → Prop) : Prop where
  resolves_refl : ∀ state, resolves state state
  forces_refl : ∀ state, forces state state
  resolves : ∀ start, env.Keeps (resolves start)
  forces : ∀ start value state, forces start state → forces start (env.force value state).2

variable {env} {resolves forces : σ → σ → Prop}

theorem Advances.forceAll (advances : env.Advances resolves forces) {start : σ}
    (tasks : List (Task Object)) {progress : Progress σ Object}
    (forced : forces start progress.outside) :
    forces start (env.forceAll tasks progress).2.outside := by
  induction tasks generalizing progress with
  | nil => exact forced
  | cons task rest ih => exact ih (advances.forces start task.value _ forced)

/-- The rounds of settling a tree follow each other, and each resolves and then forces. -/
theorem Advances.settleRounds (advances : env.Advances resolves forces) (bound : Nat)
    (tree : ResponseTree) {opened : σ} {progress : Progress σ Object}
    (resolved : resolves opened progress.outside) :
    IsChain opened ((env.settleRounds bound tree opened progress).map Round.ends)
        (env.settle bound tree progress).2.outside ∧
      ∀ round ∈ env.settleRounds bound tree opened progress,
        resolves round.opened round.resolved ∧ forces round.resolved round.forced := by
  induction bound generalizing tree opened progress with
  | zero =>
      refine ⟨⟨rfl, rfl⟩, ?_⟩
      intro round member
      rw [List.mem_singleton.mp member]
      exact ⟨resolved, advances.forces_refl _⟩
  | succ bound ih =>
      rw [Environment.settleRounds, Environment.settle_succ]
      split
      · refine ⟨⟨rfl, rfl⟩, ?_⟩
        intro round member
        rw [List.mem_singleton.mp member]
        exact ⟨resolved, advances.forces_refl _⟩
      · have forced := advances.forceAll
          (progress.queue.filter fun task => tree.isLive task.path)
          (advances.forces_refl progress.outside :
            forces progress.outside { progress with queue := [] }.outside)
        have finished := (advances.resolves _).finishAll tree
          (env.forceAll (progress.queue.filter fun task => tree.isLive task.path)
            { progress with queue := [] }).1
          (advances.resolves_refl (env.forceAll
            (progress.queue.filter fun task => tree.isLive task.path)
              { progress with queue := [] }).2.outside)
        rcases ih _ finished with ⟨chain, further⟩
        refine ⟨⟨rfl, chain⟩, ?_⟩
        intro round member
        rcases List.mem_cons.mp member with rfl | member
        · exact ⟨resolved, forced⟩
        · exact further round member

/-- The rounds of executing fields together follow each other, and each resolves and then forces. -/
theorem Advances.rounds (advances : env.Advances resolves forces) (children : PlanChildren)
    (root : ResolvedValue Object) (start : Progress σ Object) :
    IsChain start.outside ((env.rounds children root start).map Round.ends)
        (env.executeTogether children root start).2.outside ∧
      ∀ round ∈ env.rounds children root start,
        resolves round.opened round.resolved ∧ forces round.resolved round.forced :=
  advances.settleRounds _ _
    ((advances.resolves _).executeFields children root [] (advances.resolves_refl start.outside))

/-- The turns of fields follow each other, and each is in rounds that follow each other. -/
theorem Advances.turns (advances : env.Advances resolves forces) (bound : Nat)
    (root : ResolvedValue Object) (children : PlanChildren) (tree : ResponseTree)
    (progress : Progress σ Object) :
    IsChain progress.outside ((env.turns bound root children tree progress).map Turn.ends)
        (env.executeInTurn bound root children tree progress).2.outside ∧
      ∀ turn ∈ env.turns bound root children tree progress,
        IsChain turn.opened (turn.rounds.map Round.ends) turn.closed ∧
          ∀ round ∈ turn.rounds,
            resolves round.opened round.resolved ∧ forces round.resolved round.forced := by
  induction children generalizing tree progress with
  | nil => exact ⟨rfl, by simp [Environment.turns]⟩
  | cons entry rest ih =>
      rcases entry with ⟨key, node⟩
      rw [executeInTurn_cons, Environment.turns]
      split
      · exact ⟨rfl, by simp⟩
      · split
        · exact ih tree progress
        · have settled := advances.settleRounds bound
            (addField tree node.responseKey (!node.returnType.isNonNull)
              (env.executeField node root [.field node.responseKey] progress).1)
            ((advances.resolves _).executeField node root [.field node.responseKey]
              (advances.resolves_refl progress.outside))
          rcases ih _ _ with ⟨chain, further⟩
          refine ⟨⟨rfl, chain⟩, ?_⟩
          intro turn member
          rcases List.mem_cons.mp member with rfl | member
          · exact settled
          · exact further turn member

end Environment

/-- What relates the ends of every part of a chain relates everything in it. -/
theorem IsChain.related {relation : σ → σ → Prop} (refl : ∀ state, relation state state)
    (trans : ∀ {first second third}, relation first second → relation second third →
      relation first third)
    {start final : σ} {parts : List (σ × σ)} (chain : IsChain start parts final)
    (each : ∀ part ∈ parts, relation part.1 part.2) :
    relation start final ∧ (∀ part ∈ parts, relation start part.1) ∧
      parts.Pairwise fun earlier later => relation earlier.2 later.1 := by
  induction parts generalizing start with
  | nil => exact ⟨chain ▸ refl start, by simp, .nil⟩
  | cons part rest ih =>
      rcases part with ⟨opened, closed⟩
      rcases chain with ⟨rfl, chain⟩
      have here := each _ List.mem_cons_self
      rcases ih chain fun part member => each part (List.mem_cons_of_mem _ member) with
        ⟨whole, begins, ordered⟩
      refine ⟨trans here whole, ?_, List.pairwise_cons.mpr ⟨begins, ordered⟩⟩
      intro part member
      rcases List.mem_cons.mp member with rfl | member
      · exact refl _
      · exact trans here (begins part member)

/-! ## Sharing -/

namespace Journal

/-- Fields are resolved: inputs are enqueued. -/
def Resolves (before after : Journal host) : Prop :=
  ∃ joins : List (Enqueued host), after.events = before.events ++ joins.map .joined ∧
    (before.IsSound → after.IsSound)

/-- Values are forced: nothing is enqueued. -/
def Forces (before after : Journal host) : Prop :=
  ∃ loads : BatchHistory host, after.events = before.events ++ loads ∧ loads.entries = [] ∧
    (before.IsSound → after.IsSound)

/-- Time passes. -/
def Extends (before after : Journal host) : Prop :=
  before.events <+: after.events ∧ (before.IsSound → after.IsSound)

variable {before after later : Journal host}

theorem Extends.refl (journal : Journal host) : journal.Extends journal :=
  ⟨List.prefix_refl _, id⟩

theorem Extends.trans (first : before.Extends after) (second : after.Extends later) :
    before.Extends later :=
  ⟨first.1.trans second.1, second.2 ∘ first.2⟩

theorem Resolves.extends (resolves : before.Resolves after) : before.Extends after := by
  rcases resolves with ⟨joins, events, keeps⟩
  exact ⟨⟨_, events.symm⟩, keeps⟩

theorem Forces.extends (forces : before.Forces after) : before.Extends after := by
  rcases forces with ⟨loads, events, _, keeps⟩
  exact ⟨⟨_, events.symm⟩, keeps⟩

end Journal

section

variable {start final : Journal host} {rounds : List (Round (Journal host))}

theorem IsChain.extends (chain : IsChain start (rounds.map Round.ends) final)
    (each : ∀ round ∈ rounds,
      round.opened.Resolves round.resolved ∧ round.resolved.Forces round.forced) :
    start.Extends final ∧ ∀ round ∈ rounds, start.Extends round.opened := by
  have parts : ∀ part ∈ rounds.map Round.ends, part.1.Extends part.2 := by
    intro part isPart
    rcases List.mem_map.mp isPart with ⟨round, member, rfl⟩
    rcases each round member with ⟨resolves, forces⟩
    exact resolves.extends.trans forces.extends
  rcases chain.related Journal.Extends.refl Journal.Extends.trans parts with ⟨whole, begins, _⟩
  exact ⟨whole, fun round member => begins round.ends (List.mem_map_of_mem member)⟩

end

/-- In a turn an input is enqueued, and then its member is forced. -/
def Turn.Forces (turn : Turn (Journal host)) (entry : Enqueued host) : Prop :=
  ∃ (before after : BatchHistory host) (result : host.Result),
    turn.closed.events = turn.opened.events ++ before ++ .joined entry :: after ∧
      .loaded entry.member result ∈ after

/-- What is forced in a turn is of a group whose loader has been called. -/
theorem Turn.Forces.mem_calledGroups {turn : Turn (Journal host)} {entry : Enqueued host}
    (forces : turn.Forces entry) (sound : turn.closed.IsSound) :
    entry.member.group ∈ BatchHistory.calledGroups turn.closed.events := by
  rcases forces with ⟨before, after, result, events, isLoaded⟩
  rcases List.append_of_mem isLoaded with ⟨front, back, rfl⟩
  apply sound.reflects.lawful.mem_calledGroups_of_isLoaded
  refine ⟨turn.opened.events ++ before ++ .joined entry :: front, result, back, ?_, ?_⟩
  · rw [events]
    simp
  · simp [BatchHistory.entries, BatchHistory.enqueued?]

namespace Executor

variable {executor : Executor host}

/-- In an execution that keeps a journal only resolvers enqueue inputs. -/
theorem EnqueuesInResolvers.advances (quiet : executor.EnqueuesInResolvers) (bindings : Variables)
    (context : Context) :
    (executor.journaled bindings context).Advances Journal.Resolves Journal.Forces where
  resolves_refl journal := ⟨[], (List.append_nil _).symm, id⟩
  forces_refl journal := ⟨[], (List.append_nil _).symm, rfl, id⟩
  resolves start := by
    constructor
    · rintro node parent path journal ⟨joins, events, keeps⟩
      refine ⟨joins ++ executor.resolveEvents bindings context node parent path journal.session,
        ?_, fun sound => Tracks.resolve executor bindings context node parent path journal
          (keeps sound)⟩
      rw [List.map_append, ← List.append_assoc, ← events]
      rfl
    · rintro name value journal ⟨joins, events, keeps⟩
      refine ⟨joins ++ Session.enqueued (executor.resolvers.typeOf name value context)
        journal.session, ?_, fun sound => Tracks.perform _ journal (keeps sound)⟩
      rw [List.map_append, ← List.append_assoc, ← events]
      rfl
  forces start value journal := by
    rintro ⟨loads, events, enqueuesNothing, keeps⟩
    refine ⟨loads ++ executor.accessors.forceEvents executor.code executor.limits.maxLazyDepth value
      journal.session, ?_, ?_, fun sound => Tracks.forceWithin _ _ _ _ value journal (keeps sound)⟩
    · rw [← List.append_assoc, ← events]
      rfl
    · rw [BatchHistory.entries_append, enqueuesNothing, quiet.entries_forceEvents]
      rfl

end Executor

namespace BatchedNames

/-- A host without objects whose loader gives every input back. -/
def names : Host where
  Object := Empty
  kind := Empty.elim
  Work := Unit
  State := Unit

def schema : Schema :=
  (Schema.ofSource
    ("type Query { first: String second: String } "
      ++ "type Mutation { first: String second: String }")).toOption.getD {}

/-- Every field is its own name, from a batch. -/
def executor : Executor names where
  schema
  code :=
    { answer := fun _ => .done (.ok .null)
      compute := fun _ => .done .null
      load := fun _ inputs => .done (.ok (inputs.map .ofJson)) }
  resolvers :=
    { fallback := some fun call => do
        return .ok (← Action.batch "names" (.string call.info.name) Unit.unit) }

def document : Document :=
  ((Document.parse "mutation Turns { first second } query Round { first second }").toOption.map
    (·.document)).getD ⟨[], ⟨0, 0⟩⟩

def plan : Plan :=
  Plan.ofDocument schema document none

def request (name : String) : Request names where
  operation := some name
  root := .null

def start : Journal names where
  session := { state := Unit.unit }

def isNamed (data : Json) : Bool :=
  data == .object [("first", .string "first"), ("second", .string "second")]

end BatchedNames

end GraphQL

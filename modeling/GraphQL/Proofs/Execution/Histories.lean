import GraphQL.Execution.Session
import GraphQL.Proofs.OrderedMap
import Mathlib.Data.List.Induction

/-!
# Histories of batches

What happens to the batches of a session is a list of events: inputs are enqueued, loaders are
called and answer, members are loaded. A table of batches reflects such a history: every group is
what the history says about it, the open group of a key holds what waits under the key, and every
event of the history is what has to follow the events before it.
-/

namespace GraphQL

variable {host : Host} {α : Type}

/-- An input that was enqueued with a loader, and the member that it became. -/
structure Enqueued (host : Host) where
  member : BatchMember
  input : Json
  loader : host.Work

/-- What happens to batches. -/
inductive BatchEvent (host : Host) where
  | joined (entry : Enqueued host)
  /-- The loader of a group is called with some inputs. -/
  | called (group : Nat) (key : String) (loader : host.Work) (inputs : List Json)
  /-- The loader of a group has answered. -/
  | finished (group : Nat) (answer : host.BatchResult)
  /-- A member was asked for its result. -/
  | loaded (member : BatchMember) (result : host.Result)
  /-- A key was asked how many inputs wait under it. -/
  | counted (key : String) (number : Nat)

/-- All that happened to batches, from the first event on. -/
abbrev BatchHistory (host : Host) := List (BatchEvent host)

namespace BatchHistory

def enqueued? : BatchEvent host → Option (Enqueued host)
  | .joined entry => some entry
  | _ => none

/-- The group whose loader is called, if that is what happens. -/
def calledGroup? : BatchEvent host → Option Nat
  | .called group .. => some group
  | _ => none

/-- All inputs that were enqueued. -/
def entries (history : BatchHistory host) : List (Enqueued host) :=
  history.filterMap enqueued?

/-- The inputs that became members of a group. -/
def members (history : BatchHistory host) (group : Nat) : List (Enqueued host) :=
  history.entries.filter fun entry => entry.member.group = group

/-- The groups whose loaders were called. -/
def calledGroups (history : BatchHistory host) : List Nat :=
  history.filterMap calledGroup?

/-- What waits under a key after an event. -/
def waitingAfter (key : String) (waiting : List (Enqueued host)) :
    BatchEvent host → List (Enqueued host)
  | .joined entry => if entry.member.key = key then waiting ++ [entry] else waiting
  | .called _ other _ _ => if other = key then [] else waiting
  | _ => waiting

/-- The inputs that were enqueued under a key since a loader was last called for it. -/
def waiting (history : BatchHistory host) (key : String) : List (Enqueued host) :=
  history.foldl (waitingAfter key) []

/-- A member was handed out and then asked for its result. -/
def IsLoaded (history : BatchHistory host) (member : BatchMember) : Prop :=
  ∃ past result future, history = past ++ .loaded member result :: future ∧
    member ∈ (entries past).map Enqueued.member

end BatchHistory

/-- The part of a member in what the loader of its group answered for so many inputs: its own value,
or an error that all members share. -/
def BatchMember.share (member : BatchMember) (inputs : Nat) (answer : host.BatchResult) :
    host.Result :=
  match answer with
  | .error error => .error error
  | .ok values =>
      if values.length = inputs then
        match values[member.index]? with
        | some value => .ok value
        | none => .error (.internal "batch result out of range")
      else
        .error
          (.internal s!"batch '{member.key}' loaded {values.length} values for {inputs} inputs")

/-- What an event has to be after a history. -/
def BatchEvent.Follows (past : BatchHistory host) : BatchEvent host → Prop
  | joined entry =>
      past.members entry.member.group = past.waiting entry.member.key ∧
        entry.member.index = (past.waiting entry.member.key).length
  | called group key loader inputs =>
      group ∉ past.calledGroups ∧
        past.members group = past.waiting key ∧
        (past.waiting key).map Enqueued.input = inputs ∧
        (past.waiting key).head?.map Enqueued.loader = some loader
  | finished group _ =>
      ∃ (before : BatchHistory host) (key : String) (loader : host.Work) (inputs : List Json)
          (joins : List (Enqueued host)),
        past = before ++ .called group key loader inputs :: joins.map .joined
  | loaded member result =>
      ∀ entry ∈ past.entries, entry.member = member →
        ∃ loader inputs answer, .called member.group member.key loader inputs ∈ past ∧
          .finished member.group answer ∈ past ∧
          inputs[member.index]? = some entry.input ∧
          result = member.share inputs.length answer
  | counted key number => number = (past.waiting key).length

/-- Every event is what has to follow the events before it. -/
def BatchHistory.IsLawful (history : BatchHistory host) : Prop :=
  ∀ past event future, history = past ++ event :: future → event.Follows past

namespace BatchHistory

variable {history past : BatchHistory host} {event : BatchEvent host} {entry : Enqueued host}

@[simp]
theorem entries_append (first second : BatchHistory host) :
    entries (first ++ second) = first.entries ++ second.entries :=
  List.filterMap_append

@[simp]
theorem members_append (first second : BatchHistory host) (group : Nat) :
    members (first ++ second) group = first.members group ++ second.members group := by
  simp [members]

@[simp]
theorem calledGroups_append (first second : BatchHistory host) :
    calledGroups (first ++ second) = first.calledGroups ++ second.calledGroups :=
  List.filterMap_append

theorem entries_singleton (event : BatchEvent host) : entries [event] = (enqueued? event).toList := by
  cases event <;> rfl

theorem calledGroups_singleton (event : BatchEvent host) :
    calledGroups [event] = (calledGroup? event).toList := by
  cases event <;> rfl

@[simp]
theorem waiting_snoc (history : BatchHistory host) (event : BatchEvent host) (key : String) :
    waiting (history ++ [event]) key = waitingAfter key (history.waiting key) event := by
  simp [waiting]

theorem mem_members {group : Nat} :
    entry ∈ history.members group ↔ entry ∈ history.entries ∧ entry.member.group = group := by
  simp [members]

theorem mem_calledGroups {group : Nat} :
    group ∈ history.calledGroups ↔ ∃ key loader inputs, .called group key loader inputs ∈ history := by
  rw [calledGroups, List.mem_filterMap]
  constructor
  · rintro ⟨event, member, calls⟩
    cases event with
    | called other key loader inputs =>
        cases calls
        exact ⟨key, loader, inputs, member⟩
    | _ => cases calls
  · rintro ⟨key, loader, inputs, member⟩
    exact ⟨_, member, rfl⟩

@[simp]
theorem entries_joined (joins : List (Enqueued host)) :
    entries (joins.map BatchEvent.joined) = joins := by
  induction joins with
  | nil => rfl
  | cons entry rest ih => exact congrArg (entry :: ·) ih

@[simp]
theorem calledGroups_joined (joins : List (Enqueued host)) :
    calledGroups (joins.map BatchEvent.joined) = [] := by
  induction joins with
  | nil => rfl
  | cons entry rest ih => exact ih

theorem IsLawful.nil : IsLawful ([] : BatchHistory host) := by
  intro past event future split
  simp at split

theorem IsLawful.snoc (lawful : history.IsLawful) (follows : event.Follows history) :
    IsLawful (history ++ [event]) := by
  intro past other future split
  rcases List.eq_nil_or_concat future with rfl | ⟨front, last, rfl⟩
  · rcases List.append_inj' split rfl with ⟨rfl, same⟩
    cases same
    exact follows
  · rw [List.concat_eq_append, ← List.cons_append, ← List.append_assoc] at split
    exact lawful past other front (List.append_inj' split rfl).1

/-- A loader is called once for a group. -/
theorem IsLawful.called_unique (lawful : history.IsLawful) {group : Nat} {key other : String}
    {loader opener : host.Work} {inputs others : List Json}
    (first : .called group key loader inputs ∈ history)
    (second : .called group other opener others ∈ history) :
    key = other ∧ loader = opener ∧ inputs = others := by
  rcases List.append_of_mem first with ⟨before, after, split⟩
  have isNew := (lawful _ _ _ split).1
  rw [split] at second
  rcases List.mem_append.mp second with second | second
  · exact absurd (mem_calledGroups.mpr ⟨_, _, _, second⟩) isNew
  rcases List.mem_cons.mp second with same | second
  · cases same
    exact ⟨rfl, rfl, rfl⟩
  · rcases List.append_of_mem second with ⟨between, rest, further⟩
    rw [further, ← List.cons_append, ← List.append_assoc] at split
    have isNew := (lawful _ _ _ split).1
    exact absurd (mem_calledGroups.mpr
      ⟨key, loader, inputs, List.mem_append_right _ List.mem_cons_self⟩) isNew

/-- What waits under a key was enqueued under it. -/
theorem key_of_mem_waiting {key : String} (member : entry ∈ history.waiting key) :
    entry.member.key = key ∧ entry ∈ history.entries := by
  induction history using List.reverseRecOn with
  | nil => cases member
  | append_singleton past event ih =>
      rw [waiting_snoc] at member
      have before : entry ∈ waiting past key →
          entry.member.key = key ∧ entry ∈ entries (past ++ [event]) := fun member =>
        ⟨(ih member).1, by rw [entries_append]; exact List.mem_append_left _ (ih member).2⟩
      cases event with
      | joined other =>
          simp only [waitingAfter] at member
          split at member
          next same =>
            rcases List.mem_append.mp member with member | member
            · exact before member
            · rw [List.mem_singleton.mp member]
              exact ⟨same, by simp [entries, enqueued?]⟩
          next => exact before member
      | called group other loader inputs =>
          simp only [waitingAfter] at member
          split at member
          · cases member
          · exact before member
      | _ => exact before member

@[simp]
theorem members_joined (entry : Enqueued host) (group : Nat) :
    members [.joined entry] group = if entry.member.group = group then [entry] else [] := by
  by_cases same : entry.member.group = group <;> simp [members, entries, enqueued?, same]

theorem IsLawful.of_append {first second : BatchHistory host}
    (lawful : IsLawful (first ++ second)) : first.IsLawful := by
  rintro past event future rfl
  exact lawful past event (future ++ second) (by rw [List.append_assoc, List.cons_append])

theorem IsLawful.follows (lawful : IsLawful (past ++ [event])) : event.Follows past :=
  lawful past event [] rfl

/-- The index of a member is its place in its group. -/
theorem IsLawful.getElem?_members (lawful : history.IsLawful) (isEntry : entry ∈ history.entries) :
    (history.members entry.member.group)[entry.member.index]? = some entry := by
  induction history using List.reverseRecOn with
  | nil => cases isEntry
  | append_singleton past event ih =>
      have keeps : entry ∈ entries past →
          (members (past ++ [event]) entry.member.group)[entry.member.index]? = some entry := by
        intro isEntry
        have isThere := ih lawful.of_append isEntry
        rwa [members_append, List.getElem?_append_left (List.getElem?_eq_some_iff.mp isThere).1]
      cases event with
      | joined other =>
          rcases List.mem_append.mp (entries_append _ _ ▸ isEntry) with isEntry | isLast
          · exact keeps isEntry
          · rcases lawful.follows with ⟨waits, index⟩
            rw [List.mem_singleton.mp isLast, members_append, index, ← waits, members_joined,
              if_pos rfl]
            exact List.getElem?_concat_length
      | _ => exact keeps (by simpa [entries_singleton, enqueued?] using isEntry)

/-- No two inputs become the same member. -/
theorem IsLawful.nodup_members (lawful : history.IsLawful) :
    (history.entries.map Enqueued.member).Nodup := by
  induction history using List.reverseRecOn with
  | nil => exact .nil
  | append_singleton past event ih =>
      have before := ih lawful.of_append
      cases event with
      | joined entry =>
          have single : entries [BatchEvent.joined entry] = [entry] := rfl
          rw [entries_append, single, List.map_append, List.map_singleton,
            List.nodup_append_comm, List.singleton_append, List.nodup_cons]
          refine ⟨fun isMember => ?_, before⟩
          rcases List.mem_map.mp isMember with ⟨other, isEntry, same⟩
          -- The index of an earlier member is a place that was taken already.
          have isThere := lawful.of_append.getElem?_members isEntry
          rcases lawful.follows with ⟨waits, index⟩
          rw [same, waits, index, List.getElem?_eq_none (Nat.le_refl _)] at isThere
          cases isThere
      | _ => simpa [entries_singleton, enqueued?] using before

/-- No loader is called twice for a group. -/
theorem IsLawful.nodup_calledGroups (lawful : history.IsLawful) : history.calledGroups.Nodup := by
  induction history using List.reverseRecOn with
  | nil => exact .nil
  | append_singleton past event ih =>
      have before := ih lawful.of_append
      cases event with
      | called group key loader inputs =>
          have single : calledGroups [BatchEvent.called group key loader inputs] = [group] := rfl
          rw [calledGroups_append, single, List.nodup_append_comm, List.singleton_append,
            List.nodup_cons]
          exact ⟨lawful.follows.1, before⟩
      | _ => simpa [calledGroups_singleton, calledGroup?] using before

/-- A group of which a member was loaded was called before. -/
theorem IsLawful.mem_calledGroups_of_isLoaded (lawful : history.IsLawful) {member : BatchMember}
    (loaded : history.IsLoaded member) : member.group ∈ history.calledGroups := by
  rcases loaded with ⟨past, result, future, rfl, isMember⟩
  rcases List.mem_map.mp isMember with ⟨entry, isEntry, same⟩
  rcases lawful _ _ _ rfl entry isEntry same with ⟨loader, inputs, answer, isCalled, _⟩
  rw [calledGroups_append]
  exact List.mem_append_left _ (mem_calledGroups.mpr ⟨_, _, _, isCalled⟩)

end BatchHistory

/-! ## Tables -/

/-- A group is what a history says about it. -/
structure BatchGroup.Reflects (found : BatchGroup host.Work host.Value) (number : Nat)
    (history : BatchHistory host) : Prop where
  keyed : ∀ entry ∈ history.members number, entry.member.key = found.key
  opener : (history.members number).head?.map Enqueued.loader = some found.loader
  stage : match found.stage with
    | .collecting inputs =>
        number ∉ history.calledGroups ∧
          history.members number = history.waiting found.key ∧
          (history.members number).map Enqueued.input = inputs
    | .loading =>
        .called number found.key found.loader ((history.members number).map Enqueued.input) ∈ history
    | .loaded result =>
        .called number found.key found.loader
            ((history.members number).map Enqueued.input) ∈ history ∧
          ∃ answer, .finished number answer ∈ history ∧
            result = checkedBatch found.key (history.members number).length answer

namespace BatchTable

/-- A table is what a history leads to. -/
structure Reflects (table : BatchTable host.Work host.Value) (history : BatchHistory host) :
    Prop where
  lawful : history.IsLawful
  groups : ∀ number found, table.groups[number]? = some found →
    BatchGroup.Reflects found number history
  /-- Nothing has happened to a group that is not in the table. -/
  fresh : ∀ number, table.groups[number]? = none →
    history.members number = [] ∧ number ∉ history.calledGroups
  /-- The group opened last under a key has that key. -/
  latest : ∀ key number, table.latest.find? key = some number →
    ∃ found, table.groups[number]? = some found ∧ found.key = key
  /-- A group that collects is the one opened last under its key. -/
  collecting : ∀ number found inputs, table.groups[number]? = some found →
    found.stage = .collecting inputs → table.latest.find? found.key = some number
  /-- What waits under a key waits in its open group. -/
  idle : ∀ key, table.openGroup? key = none → history.waiting key = []

variable {table : BatchTable host.Work host.Value} {key : String} {number : Nat}
  {inputs : List Json}

/-- A group whose loader has been called and has not answered. -/
def IsLoading (table : BatchTable host.Work host.Value) (number : Nat) : Prop :=
  ∃ key loader, table.groups[number]? = some ⟨key, loader, .loading⟩

theorem openGroup?_eq_some_iff :
    table.openGroup? key = some (number, inputs) ↔
      table.latest.find? key = some number ∧
        ∃ found, table.groups[number]? = some found ∧ found.stage = .collecting inputs := by
  simp only [openGroup?, Option.bind_eq_bind, Option.bind_eq_some_iff]
  constructor
  · rintro ⟨group, latest, isOpen⟩
    split at isOpen
    next found =>
      cases isOpen
      exact ⟨latest, _, found, rfl⟩
    next => cases isOpen
  · rintro ⟨latest, ⟨other, loader, stage⟩, found, rfl⟩
    exact ⟨number, latest, by rw [found]; rfl⟩

theorem getElem?_setStage (table : BatchTable host.Work host.Value) (number other : Nat)
    (stage : BatchStage host.Value) :
    (table.setStage number stage).groups[other]? =
      if number = other then table.groups[other]?.map ({ · with stage })
      else table.groups[other]? := by
  rw [setStage, List.getElem?_modify]
  split
  · rfl
  · simp

/-- A key that is closed later was closed before, or its open group has changed. -/
theorem openGroup?_eq_none_of_later {later : BatchTable host.Work host.Value}
    (closed : later.openGroup? key = none)
    (latest : later.latest.find? key = table.latest.find? key)
    (stays : ∀ number inputs, table.openGroup? key = some (number, inputs) →
      later.groups[number]? = table.groups[number]?) : table.openGroup? key = none := by
  rw [Option.eq_none_iff_forall_not_mem]
  rintro ⟨number, inputs⟩ isOpen
  rcases openGroup?_eq_some_iff.mp isOpen with ⟨isLatest, found, isFound, collects⟩
  have stillOpen : later.openGroup? key = some (number, inputs) :=
    openGroup?_eq_some_iff.mpr
      ⟨latest.trans isLatest, found, (stays number inputs isOpen).trans isFound, collects⟩
  rw [stillOpen] at closed
  cases closed

/-- Changing a group closes no key of which it is not the open group. -/
theorem openGroup?_eq_none_of_setStage {stage : BatchStage host.Value}
    (closed : (table.setStage number stage).openGroup? key = none)
    (isOther : ∀ inputs, table.openGroup? key ≠ some (number, inputs)) :
    table.openGroup? key = none := by
  refine openGroup?_eq_none_of_later closed rfl fun opened inputs isOpen => ?_
  rw [getElem?_setStage, if_neg]
  rintro rfl
  exact isOther inputs isOpen

end BatchTable

/-- An event that does not concern a group leaves it what the history says about it. -/
theorem BatchGroup.Reflects.snoc {found : BatchGroup host.Work host.Value} {number : Nat}
    {history : BatchHistory host} (reflects : found.Reflects number history)
    {event : BatchEvent host} (joins : BatchHistory.members [event] number = [])
    (collects : ∀ inputs, found.stage = .collecting inputs →
      number ∉ BatchHistory.calledGroups [event] ∧
        BatchHistory.waitingAfter found.key (history.waiting found.key) event =
          history.waiting found.key) :
    found.Reflects number (history ++ [event]) := by
  rcases reflects with ⟨keyed, opener, stage⟩
  have same : BatchHistory.members (history ++ [event]) number = history.members number := by
    rw [BatchHistory.members_append, joins, List.append_nil]
  refine ⟨same ▸ keyed, same ▸ opener, ?_⟩
  rw [same, BatchHistory.waiting_snoc, BatchHistory.calledGroups_append]
  rcases found with ⟨key, loader, stage | _ | result⟩
  · rcases stage with ⟨isNew, waits, inputs⟩
    rcases collects _ rfl with ⟨calls, keeps⟩
    exact ⟨List.mem_append.not.mpr (not_or.mpr ⟨isNew, calls⟩), waits.trans keeps.symm, inputs⟩
  · exact List.mem_append_left _ stage
  · rcases stage with ⟨called, answer, finished, same⟩
    exact ⟨List.mem_append_left _ called, answer, List.mem_append_left _ finished, same⟩

/-- The group of an input is what waits under its key. -/
theorem BatchGroup.Reflects.joined {history : BatchHistory host} {entry : Enqueued host} {opener : host.Work}
    (follows : (BatchEvent.joined entry).Follows history)
    (isNew : entry.member.group ∉ history.calledGroups)
    (opens : (history.waiting entry.member.key ++ [entry]).head?.map Enqueued.loader = some opener) :
    BatchGroup.Reflects ⟨entry.member.key, opener,
        .collecting ((history.waiting entry.member.key ++ [entry]).map Enqueued.input)⟩
      entry.member.group (history ++ [.joined entry]) := by
  have members : BatchHistory.members (history ++ [.joined entry]) entry.member.group =
      history.waiting entry.member.key ++ [entry] := by
    rw [BatchHistory.members_append, follows.1, BatchHistory.members_joined, if_pos rfl]
  refine ⟨?_, members ▸ opens, ?_, ?_, by rw [members]⟩
  · rw [members]
    intro joined member
    rcases List.mem_append.mp member with member | member
    · exact (BatchHistory.key_of_mem_waiting member).1
    · rw [List.mem_singleton.mp member]
  · rw [BatchHistory.calledGroups_append]
    exact (List.append_nil _).symm ▸ isNew
  · rw [members, BatchHistory.waiting_snoc, BatchHistory.waitingAfter, if_pos rfl]

namespace BatchTable

variable {table : BatchTable host.Work host.Value} {history : BatchHistory host}

/-- What is neither an input nor a call changes no group. -/
theorem Reflects.snoc_of_same (reflects : table.Reflects history) {event : BatchEvent host}
    (follows : event.Follows history) (joins : BatchHistory.enqueued? event = none)
    (calls : BatchHistory.calledGroup? event = none)
    (waits : ∀ key waiting, BatchHistory.waitingAfter key waiting event = waiting) :
    table.Reflects (history ++ [event]) := by
  have noMembers : ∀ number, BatchHistory.members [event] number = [] := by
    intro number
    simp [BatchHistory.members, BatchHistory.entries, joins]
  have noCalls : BatchHistory.calledGroups [event] = [] := by
    simp [BatchHistory.calledGroups, calls]
  refine ⟨reflects.lawful.snoc follows, ?_, ?_, reflects.latest, reflects.collecting, ?_⟩
  · intro number found isFound
    exact (reflects.groups number found isFound).snoc (noMembers number) fun _ _ =>
      ⟨by simp [noCalls], waits _ _⟩
  · intro number isNew
    rw [BatchHistory.members_append, BatchHistory.calledGroups_append, noMembers, noCalls]
    simpa using reflects.fresh number isNew
  · intro key closed
    rw [BatchHistory.waiting_snoc, waits]
    exact reflects.idle key closed

/-- The open group of a key has the inputs that wait under the key. -/
theorem Reflects.of_open (reflects : table.Reflects history) {key : String} {number : Nat}
    {inputs : List Json} (isOpen : table.openGroup? key = some (number, inputs)) :
    ∃ loader, table.groups[number]? = some ⟨key, loader, .collecting inputs⟩ ∧
      history.members number = history.waiting key ∧
      (history.waiting key).map Enqueued.input = inputs ∧ history.waiting key ≠ [] := by
  rcases openGroup?_eq_some_iff.mp isOpen with ⟨latest, ⟨other, loader, stage⟩, found, collects⟩
  rcases reflects.latest key number latest with ⟨same, isFound, rfl⟩
  rw [found] at isFound
  cases isFound
  cases collects
  have group := reflects.groups number _ found
  rcases group.stage with ⟨_, waits, collected⟩
  refine ⟨loader, found, waits, waits ▸ collected, ?_⟩
  intro empty
  have opener := group.opener
  rw [waits, empty] at opener
  cases opener

/-- As many inputs wait in the table as in its history. -/
theorem Reflects.waiting_eq (reflects : table.Reflects history) {key : String} :
    table.waiting key = (history.waiting key).length := by
  rw [BatchTable.waiting]
  cases isOpen : table.openGroup? key with
  | none => rw [reflects.idle key isOpen]; rfl
  | some opened =>
      rcases reflects.of_open isOpen with ⟨loader, found, waits, collected, _⟩
      exact (congrArg List.length collected).symm.trans (List.length_map _)

/-- An input joins what waits under its key: its group has all of that now and was opened last. -/
theorem Reflects.join (reflects : table.Reflects history) {after : BatchTable host.Work host.Value}
    {entry : Enqueued host} (opener : host.Work)
    (follows : (BatchEvent.joined entry).Follows history)
    (isNew : entry.member.group ∉ history.calledGroups)
    (alone : ∀ other found inputs, table.groups[other]? = some found →
      found.stage = .collecting inputs → found.key = entry.member.key → other = entry.member.group)
    (keyed : ∀ found, table.groups[entry.member.group]? = some found → found.key = entry.member.key)
    (found : after.groups[entry.member.group]? = some ⟨entry.member.key, opener,
      .collecting ((history.waiting entry.member.key ++ [entry]).map Enqueued.input)⟩)
    (opens : (history.waiting entry.member.key ++ [entry]).head?.map Enqueued.loader = some opener)
    (others : ∀ other ≠ entry.member.group, after.groups[other]? = table.groups[other]?)
    (latest : ∀ key, after.latest.find? key =
      if key = entry.member.key then some entry.member.group else table.latest.find? key) :
    after.Reflects (history ++ [.joined entry]) := by
  have elsewhere : ∀ other ≠ entry.member.group,
      BatchHistory.members [.joined entry] other = [] := by
    intro other differs
    rw [BatchHistory.members_joined, if_neg fun same => differs same.symm]
  have noCalls : BatchHistory.calledGroups [BatchEvent.joined entry] = [] := rfl
  refine ⟨reflects.lawful.snoc follows, ?_, ?_, ?_, ?_, ?_⟩
  · intro other group isFound
    by_cases same : other = entry.member.group
    · subst same
      rw [found] at isFound
      cases isFound
      exact BatchGroup.Reflects.joined follows isNew opens
    · rw [others other same] at isFound
      refine (reflects.groups other group isFound).snoc (elsewhere other same) ?_
      intro inputs collects
      refine ⟨by simp [noCalls], ?_⟩
      rw [BatchHistory.waitingAfter, if_neg]
      exact fun sameKey => same (alone other group inputs isFound collects sameKey.symm)
  · intro other isFree
    have differs : other ≠ entry.member.group := by
      rintro rfl
      rw [found] at isFree
      cases isFree
    rw [others other differs] at isFree
    rw [BatchHistory.members_append, elsewhere other differs, BatchHistory.calledGroups_append,
      noCalls]
    simpa using reflects.fresh other isFree
  · intro key number isLatest
    rw [latest] at isLatest
    split at isLatest
    next same =>
      cases isLatest
      exact ⟨_, found, same.symm⟩
    next differs =>
      rcases reflects.latest key number isLatest with ⟨group, isFound, rfl⟩
      have elsewhere : number ≠ entry.member.group := by
        rintro rfl
        exact differs (keyed group isFound)
      exact ⟨group, by rw [others number elsewhere]; exact isFound, rfl⟩
  · intro other group inputs isFound collects
    rw [latest]
    by_cases same : other = entry.member.group
    · subst same
      rw [found] at isFound
      cases isFound
      rw [if_pos rfl]
    · rw [others other same] at isFound
      rw [if_neg fun sameKey => same (alone other group inputs isFound collects sameKey)]
      exact reflects.collecting other group inputs isFound collects
  · intro key closed
    have differs : key ≠ entry.member.key := by
      rintro rfl
      have isOpen := openGroup?_eq_some_iff.mpr ⟨by rw [latest, if_pos rfl], _, found, rfl⟩
      rw [isOpen] at closed
      cases closed
    rw [BatchHistory.waiting_snoc, BatchHistory.waitingAfter, if_neg differs.symm]
    refine reflects.idle key (openGroup?_eq_none_of_later closed ?_ fun number inputs isOpen => ?_)
    · rw [latest, if_neg differs]
    · apply others
      rintro rfl
      rcases reflects.latest key _ (openGroup?_eq_some_iff.mp isOpen).1 with ⟨found, isFound, rfl⟩
      exact differs (keyed found isFound)

/-- A key has one group that collects. -/
theorem Reflects.eq_of_collecting (reflects : table.Reflects history) {number other : Nat}
    {found : BatchGroup host.Work host.Value} {inputs : List Json}
    (latest : table.latest.find? found.key = some number)
    (isFound : table.groups[other]? = some found) (collects : found.stage = .collecting inputs) :
    other = number :=
  Option.some.inj ((reflects.collecting other found inputs isFound collects).symm.trans latest)

theorem enqueue_of_open {key : String} {number : Nat} {inputs : List Json}
    (isOpen : table.openGroup? key = some (number, inputs)) (input : Json) (loader : host.Work) :
    table.enqueue key input loader =
      (⟨key, number, inputs.length⟩, table.setStage number (.collecting (inputs ++ [input]))) := by
  rw [BatchTable.enqueue, isOpen]

theorem enqueue_of_closed {key : String} (closed : table.openGroup? key = none) (input : Json)
    (loader : host.Work) :
    table.enqueue key input loader =
      (⟨key, table.groups.length, 0⟩,
        { groups := table.groups ++ [{ key, loader, stage := .collecting [input] }]
          latest := table.latest.insert key table.groups.length }) := by
  rw [BatchTable.enqueue, closed]

/-- An input that is enqueued joins what waits under its key, in the group of that or in a new one.
-/
theorem Reflects.enqueue (reflects : table.Reflects history) (key : String) (input : Json)
    (loader : host.Work) :
    (table.enqueue key input loader).2.Reflects
      (history ++ [.joined ⟨(table.enqueue key input loader).1, input, loader⟩]) := by
  cases isOpen : table.openGroup? key with
  | some opened =>
      rcases opened with ⟨number, inputs⟩
      rcases openGroup?_eq_some_iff.mp isOpen with ⟨latest, _⟩
      rcases reflects.of_open isOpen with ⟨opener, found, waits, collected, isNonempty⟩
      have group := reflects.groups number _ found
      have length : inputs.length = (history.waiting key).length := by
        rw [← collected, List.length_map]
      rw [enqueue_of_open isOpen]
      refine reflects.join opener ⟨waits, length⟩ group.stage.1 ?_ ?_ ?_ ?_ ?_ ?_
      · intro other found inputs isFound collects same
        exact reflects.eq_of_collecting (same ▸ latest) isFound collects
      · intro other isFound
        rw [found] at isFound
        cases isFound
        rfl
      · rw [getElem?_setStage, if_pos rfl, found, List.map_append, collected]
        rfl
      · rw [← waits, List.head?_append_of_ne_nil _ (waits ▸ isNonempty)]
        exact group.opener
      · intro other differs
        rw [getElem?_setStage, if_neg fun same => differs same.symm]
      · intro other
        by_cases same : other = key
        · rw [if_pos same, same]
          exact latest
        · rw [if_neg same]
          rfl
  | none =>
      have empty := reflects.idle key isOpen
      have isFree : table.groups[table.groups.length]? = none := List.getElem?_eq_none (Nat.le_refl _)
      rcases reflects.fresh _ isFree with ⟨noMembers, isNew⟩
      rw [enqueue_of_closed isOpen]
      refine reflects.join loader ⟨noMembers.trans empty.symm, by rw [empty]; rfl⟩ isNew
        ?_ ?_ ?_ ?_ ?_ ?_
      · intro other found inputs isFound collects same
        have latest := reflects.collecting other found inputs isFound collects
        rw [show found.key = key from same] at latest
        have opened : table.openGroup? key = some (other, inputs) :=
          openGroup?_eq_some_iff.mpr ⟨latest, found, isFound, collects⟩
        rw [isOpen] at opened
        cases opened
      · intro found isFound
        rw [isFree] at isFound
        cases isFound
      · rw [empty]
        exact List.getElem?_concat_length
      · rw [empty]
        rfl
      · intro other differs
        by_cases isOld : other < table.groups.length
        · exact List.getElem?_append_left isOld
        · have isOther : other ≠ table.groups.length := differs
          rw [List.getElem?_eq_none (by rw [List.length_append, List.length_singleton]; omega),
            List.getElem?_eq_none (by omega)]
      · intro other
        simp only [OrderedMap.find?_insert, eq_comm]

/-- A group that does not collect any more is changed by an event that concerns only it. -/
theorem Reflects.replace (reflects : table.Reflects history) {number : Nat}
    {found : BatchGroup host.Work host.Value} {stage : BatchStage host.Value}
    {event : BatchEvent host} (isFound : table.groups[number]? = some found)
    (follows : event.Follows history) (isDone : ∀ inputs, stage ≠ .collecting inputs)
    (joins : BatchHistory.enqueued? event = none)
    (calls : ∀ other ≠ number, other ∉ BatchHistory.calledGroups [event])
    (changed : BatchGroup.Reflects { found with stage } number (history ++ [event]))
    (waits : ∀ other group inputs, other ≠ number → table.groups[other]? = some group →
      group.stage = .collecting inputs →
        BatchHistory.waitingAfter group.key (history.waiting group.key) event =
          history.waiting group.key)
    (idle : ∀ key, (table.setStage number stage).openGroup? key = none →
      BatchHistory.waiting (history ++ [event]) key = []) :
    (table.setStage number stage).Reflects (history ++ [event]) := by
  have noMembers : ∀ other, BatchHistory.members [event] other = [] := by
    intro other
    simp [BatchHistory.members, BatchHistory.entries, joins]
  refine ⟨reflects.lawful.snoc follows, ?_, ?_, ?_, ?_, idle⟩
  · intro other group isGroup
    rw [getElem?_setStage] at isGroup
    split at isGroup
    next same =>
      subst same
      rw [isFound] at isGroup
      cases isGroup
      exact changed
    next differs =>
      have isOther : other ≠ number := fun same => differs same.symm
      refine (reflects.groups other group isGroup).snoc (noMembers other) fun inputs collects => ?_
      exact ⟨calls other isOther, waits other group inputs isOther isGroup collects⟩
  · intro other isFree
    rw [getElem?_setStage] at isFree
    have isOther : other ≠ number := by
      rintro rfl
      rw [if_pos rfl, isFound] at isFree
      cases isFree
    rw [if_neg fun same => isOther same.symm] at isFree
    rw [BatchHistory.members_append, noMembers, BatchHistory.calledGroups_append, List.append_nil]
    rcases reflects.fresh other isFree with ⟨noMembers, isNew⟩
    exact ⟨noMembers, List.mem_append.not.mpr (not_or.mpr ⟨isNew, calls other isOther⟩)⟩
  · intro key other isLatest
    rcases reflects.latest key other isLatest with ⟨group, isGroup, keyed⟩
    rw [getElem?_setStage, isGroup]
    split
    · exact ⟨_, rfl, keyed⟩
    · exact ⟨_, rfl, keyed⟩
  · intro other group inputs isGroup collects
    rw [getElem?_setStage] at isGroup
    split at isGroup
    next same =>
      subst same
      rw [isFound] at isGroup
      cases isGroup
      exact absurd collects (isDone inputs)
    next => exact reflects.collecting other group inputs isGroup collects

/-- The loader of a group that collects is called with what waits under its key. -/
theorem Reflects.call (reflects : table.Reflects history) {number : Nat} {key : String}
    {loader : host.Work} {inputs : List Json}
    (isFound : table.groups[number]? = some ⟨key, loader, .collecting inputs⟩) :
    (table.setStage number .loading).Reflects
      (history ++ [.called number key loader inputs]) := by
  have group := reflects.groups number _ isFound
  rcases group.stage with ⟨isNew, waits, collected⟩
  have latest := reflects.collecting number _ inputs isFound rfl
  have noMembers : BatchHistory.members [.called number key loader inputs] number = [] := rfl
  have members : BatchHistory.members (history ++ [.called number key loader inputs]) number =
      history.members number := by
    rw [BatchHistory.members_append, noMembers, List.append_nil]
  refine reflects.replace isFound ⟨isNew, waits, waits ▸ collected, waits ▸ group.opener⟩ ?_ rfl
    ?_ ?_ ?_ ?_
  · intro inputs same
    cases same
  · intro other differs member
    exact differs (List.mem_singleton.mp member)
  · refine ⟨members ▸ group.keyed, members ▸ group.opener, ?_⟩
    rw [members, collected]
    exact List.mem_append_right _ (List.mem_singleton_self _)
  · intro other found inputs differs isGroup collects
    rw [BatchHistory.waitingAfter, if_neg]
    exact fun same => differs (reflects.eq_of_collecting (same ▸ latest) isGroup collects)
  · intro other closed
    rw [BatchHistory.waiting_snoc, BatchHistory.waitingAfter]
    split
    · rfl
    next differs =>
      refine reflects.idle other (openGroup?_eq_none_of_setStage closed fun inputs isOpen => ?_)
      rcases reflects.of_open isOpen with ⟨opener, isGroup, _⟩
      rw [isFound] at isGroup
      cases isGroup
      exact differs rfl

/-- The loader of a group answers. -/
theorem Reflects.finish (reflects : table.Reflects history) {number : Nat} {key : String}
    {loader : host.Work} (isFound : table.groups[number]? = some ⟨key, loader, .loading⟩)
    {answer : host.BatchResult} (follows : (BatchEvent.finished number answer).Follows history) :
    (table.setStage number
        (.loaded (checkedBatch key (history.members number).length answer))).Reflects
      (history ++ [.finished number answer]) := by
  have group := reflects.groups number _ isFound
  have members : BatchHistory.members (history ++ [.finished number answer]) number =
      history.members number := by
    rw [BatchHistory.members_append]
    exact List.append_nil _
  refine reflects.replace isFound follows ?_ rfl ?_ ?_ ?_ ?_
  · intro inputs same
    cases same
  · intro other differs member
    cases member
  · refine ⟨members ▸ group.keyed, members ▸ group.opener, ?_⟩
    rw [members]
    exact ⟨List.mem_append_left _ group.stage, answer,
      List.mem_append_right _ (List.mem_singleton_self _), rfl⟩
  · intro other found inputs differs isGroup collects
    rfl
  · intro other closed
    rw [BatchHistory.waiting_snoc]
    refine reflects.idle other (openGroup?_eq_none_of_setStage closed fun inputs isOpen => ?_)
    rcases reflects.of_open isOpen with ⟨opener, isGroup, _⟩
    rw [isFound] at isGroup
    cases isGroup

/-- A group is loading after an input was enqueued exactly if it was before. -/
theorem getElem?_enqueue_loading {number : Nat} {other : String} {opener : host.Work} (key : String)
    (input : Json) (loader : host.Work) :
    (table.enqueue key input loader).2.groups[number]? = some ⟨other, opener, .loading⟩ ↔
      table.groups[number]? = some ⟨other, opener, .loading⟩ := by
  cases isOpen : table.openGroup? key with
  | some opened =>
      rcases opened with ⟨group, inputs⟩
      rcases openGroup?_eq_some_iff.mp isOpen with ⟨_, found, isFound, collects⟩
      rw [enqueue_of_open isOpen, getElem?_setStage]
      split
      next same =>
        subst same
        rw [isFound]
        simp only [Option.map_some, Option.some.injEq]
        constructor
        · intro same
          cases same
        · rintro rfl
          cases collects
      next => rfl
  | none =>
      rw [enqueue_of_closed isOpen]
      by_cases isOld : number < table.groups.length
      · rw [List.getElem?_append_left isOld]
      · have isFree : table.groups[number]? = none := List.getElem?_eq_none (by omega)
        rw [List.getElem?_append_right (by omega), isFree]
        cases number - table.groups.length with
        | zero => simp
        | succ rest => simp

end BatchTable

end GraphQL

import GraphQL.Proofs.Execution.Machine
import GraphQL.Proofs.Execution.Shown
import GraphQL.Proofs.Execution.Simulation

/-!
# Completing values in an arena

Over slots a value is completed as it is without them: the same is asked, recorded and queued, and
the slot shows the tree that is made. The tasks that are queued on the way wait for slots that are
still open, and can need only so many rounds.
-/

namespace GraphQL

/-- Nothing was made for a slot, or it became null. -/
def Arena.IsOpen (arena : Arena) (index : Nat) : Prop :=
  arena.value? index = some .unset ∨ arena.value? index = some .null

theorem Arena.IsOpen.lt_size {arena : Arena} {index : Nat} (isOpen : arena.IsOpen index) :
    index < arena.size :=
  isOpen.elim Arena.lt_size_of_value? Arena.lt_size_of_value?

variable {σ Object : Type}

/-- A task waits for a slot, which is at its path as seen from a slot above. -/
structure SlotTask.IsDue (entry : SlotTask Object) (top : Nat) (path : ResponsePath) (most : Nat)
    (arena : Arena) : Prop where
  isOpen : arena.IsOpen entry.slot
  leads : ∃ rest, entry.task.path = path ++ rest ∧ arena.Leads top rest entry.slot
  height : entry.task.height ≤ most
  keyed : ∀ typed ∈ entry.task.node.typedChildren, PlanChildren.IsKeyed typed.2

namespace Machine

/-- A result was made for a slot: it is shown, or the failure went up. Only some open slots were
touched, and the new tasks wait for them or for new slots. -/
structure Makes (before : Machine σ Object) (touched : List Nat) (slot : Nat) (path : ResponsePath)
    (most : Nat) (made : Option ResponseTree) (after : Machine σ Object) : Prop where
  linked : after.arena.IsLinked
  becomes : before.arena.Becomes slot made after.arena
  spares : ∀ index, before.arena.IsOpen index → index ∉ touched → after.arena.IsOpen index
  queued : ∃ more, after.queue = before.queue ++ more ∧ (more.map SlotTask.slot).Nodup ∧
    (∀ entry ∈ more, entry.slot ∈ touched ∨ before.arena.size ≤ entry.slot) ∧
    ∀ entry ∈ more, entry.IsDue slot path most after.arena

/-- A slot for which a value can be completed. -/
structure IsReady (machine : Machine σ Object) (slot : Nat) : Prop where
  linked : machine.arena.IsLinked
  isAlive : ¬machine.arena.IsDead slot
  isUnset : machine.arena.value? slot = some .unset

/-- Over slots there is a way to a state that shows what was made without them. -/
def Mirrors (machine : Machine σ Object) (touched : List Nat) (slot : Nat) (path : ResponsePath)
    (most : Nat) (moves : Machine σ Object → Prop)
    (ran : Option ResponseTree × Progress σ Object) : Prop :=
  ∃ after, moves after ∧ after.progress = ran.2 ∧ machine.Makes touched slot path most ran.1 after

variable {before middle after machine : Machine σ Object} {touched others : List Nat} {slot : Nat}
  {path : ResponsePath} {most : Nat} {made : Option ResponseTree} {tree : ResponseTree}

end Machine

namespace SlotTask.IsDue

variable {entry : SlotTask Object} {top inner most : Nat} {path : ResponsePath}
  {before after : Arena}

theorem mono (due : entry.IsDue top path most after) {more : Nat} (le : most ≤ more) :
    entry.IsDue top path more after :=
  { due with height := Nat.le_trans due.height le }

theorem later (due : entry.IsDue top path most before) (linked : before.IsLinked)
    (linkedAfter : after.IsLinked) (evolves : before.Evolves after)
    (isOpen : after.IsOpen entry.slot) : entry.IsDue top path most after where
  isOpen := isOpen
  leads := by
    rcases due.leads with ⟨rest, isPath, leads⟩
    exact ⟨rest, isPath, leads.evolves linked linkedAfter evolves⟩
  height := due.height
  keyed := due.keyed

/-- A task below a slot is below the slot around it. -/
theorem up {segment : PathSegment} (due : entry.IsDue inner (path ++ [segment]) most after)
    (linked : before.IsLinked) (linkedAfter : after.IsLinked) (evolves : before.Evolves after)
    {value : SlotValue} (holds : before.value? top = some value)
    (found : value.child? segment = some inner) : entry.IsDue top path most after where
  isOpen := due.isOpen
  leads := by
    rcases due.leads with ⟨rest, isPath, leads⟩
    refine ⟨segment :: rest, ?_, leads.up linked linkedAfter evolves holds found⟩
    rw [isPath, List.append_assoc, List.singleton_append]
  height := due.height
  keyed := due.keyed

end SlotTask.IsDue

namespace Machine

variable {before middle after machine : Machine σ Object} {touched others : List Nat}
  {slot inner : Nat} {path : ResponsePath} {most : Nat} {made : Option ResponseTree}
  {tree : ResponseTree}

namespace Makes

theorem evolves (makes : before.Makes touched slot path most made after) :
    before.arena.Evolves after.arena :=
  makes.becomes.evolves

theorem shows (makes : before.Makes touched slot path most (some tree) after) :
    after.arena.Shows slot tree := by
  rcases makes.becomes with ⟨-, shows⟩
  exact shows

theorem mono (makes : before.Makes touched slot path most made after) {more : Nat}
    (le : most ≤ more) (subset : touched ⊆ others) :
    before.Makes others slot path more made after where
  linked := makes.linked
  becomes := makes.becomes
  spares index isOpen apart := makes.spares index isOpen fun member => apart (subset member)
  queued := by
    rcases makes.queued with ⟨queued, isQueue, distinct, slots, due⟩
    refine ⟨queued, isQueue, distinct, ?_, fun entry member => (due entry member).mono le⟩
    exact fun entry member => (slots entry member).imp_left fun known => subset known

/-- What is made does not depend on what is asked for from outside. -/
theorem of_outside {outside : σ}
    (makes : Makes { before with outside } touched slot path most made after) :
    before.Makes touched slot path most made after :=
  ⟨makes.linked, makes.becomes, makes.spares, makes.queued⟩

/-- What a slot shows already was made for it. -/
theorem done (linked : machine.arena.IsLinked) (shows : machine.arena.Shows slot tree) :
    machine.Makes touched slot path most (some tree) machine where
  linked := linked
  becomes := .made (.refl _ _) shows
  spares _ isOpen _ := isOpen
  queued := ⟨[], (List.append_nil _).symm, List.nodup_nil, nofun, nofun⟩

/-- What was made later is made in the end. -/
theorem becomes_trans (first : before.Makes touched slot path most (some tree) middle)
    (rest : middle.Makes others slot path most made after) :
    before.arena.Becomes slot made after.arena := by
  rcases first.becomes with ⟨within, -⟩
  cases rest.becomes with
  | made later shows => exact .made (within.trans first.linked later) shows
  | failed linked later nulls => exact .failed linked (within.trans first.linked later) nulls

/-- More is made for a slot, and for slots that were there and not touched. -/
theorem trans (first : before.Makes touched slot path most (some tree) middle)
    (rest : middle.Makes others slot path most made after) (apart : touched.Disjoint others)
    (old : ∀ index ∈ others, index < before.arena.size) :
    before.Makes (touched ++ others) slot path most made after where
  linked := rest.linked
  becomes := first.becomes_trans rest
  spares index isOpen isOther := by
    rw [List.mem_append, not_or] at isOther
    exact rest.spares index (first.spares index isOpen isOther.1) isOther.2
  queued := by
    rcases first.queued with ⟨one, isOne, distinctOne, slotsOne, dueOne⟩
    rcases rest.queued with ⟨two, isTwo, distinctTwo, slotsTwo, dueTwo⟩
    have spared {entry : SlotTask Object} (member : entry ∈ one) : entry.slot ∉ others := by
      intro isOther
      rcases slotsOne entry member with isTouched | isNew
      · exact apart isTouched isOther
      · exact Nat.not_le_of_lt (old _ isOther) isNew
    refine ⟨one ++ two, ?_, ?_, ?_, ?_⟩
    · rw [isTwo, isOne, List.append_assoc]
    · rw [List.map_append, List.nodup_append]
      refine ⟨distinctOne, distinctTwo, ?_⟩
      intro index memberOne other memberTwo same
      rcases List.mem_map.mp memberOne with ⟨entry, inOne, rfl⟩
      rcases List.mem_map.mp memberTwo with ⟨later, inTwo, rfl⟩
      rcases slotsTwo later inTwo with isOther | isNew
      · exact spared inOne (same ▸ isOther)
      · exact Nat.not_le_of_lt (dueOne entry inOne).isOpen.lt_size (same ▸ isNew)
    · intro entry member
      rcases List.mem_append.mp member with inOne | inTwo
      · exact (slotsOne entry inOne).imp_left (List.mem_append_left _)
      · rcases slotsTwo entry inTwo with isOther | isNew
        · exact .inl (List.mem_append_right _ isOther)
        · exact .inr (Nat.le_trans first.evolves.size_le isNew)
    · intro entry member
      rcases List.mem_append.mp member with inOne | inTwo
      · have due := dueOne entry inOne
        exact due.later first.linked rest.linked rest.evolves
          (rest.spares _ due.isOpen (spared inOne))
      · exact dueTwo entry inTwo

/-- More is made for a slot, and for new slots. -/
theorem after_open (opened : before.Makes touched slot path most (some tree) middle)
    (same : middle.queue = before.queue)
    (rest : middle.Makes others slot path most made after)
    (isNew : ∀ index ∈ others, before.arena.size ≤ index) :
    before.Makes touched slot path most made after where
  linked := rest.linked
  becomes := opened.becomes_trans rest
  spares index isOpen isOther := by
    refine rest.spares index (opened.spares index isOpen isOther) fun member => ?_
    exact Nat.not_le_of_lt isOpen.lt_size (isNew index member)
  queued := by
    rcases rest.queued with ⟨more, isMore, distinct, slots, due⟩
    refine ⟨more, same ▸ isMore, distinct, fun entry member => .inr ?_, due⟩
    rcases slots entry member with known | later
    · exact isNew _ known
    · exact Nat.le_trans opened.evolves.size_le later

/-- What is made for a slot directly below another is made for that one as a part of its tree. -/
theorem up {segment : PathSegment}
    (makes : before.Makes touched inner (path ++ [segment]) most made after)
    (linked : before.arena.IsLinked) (shows : before.arena.Shows slot tree) {value : SlotValue}
    (holds : before.arena.value? slot = some value) (found : value.child? segment = some inner)
    {nullable : Bool} (isNullable : before.arena.nullable? inner = some nullable) :
    before.Makes touched slot path most
      ((ResponseTree.filled nullable made).map (tree.withBranch segment)) after where
  linked := makes.linked
  becomes := makes.becomes.up linked shows holds found isNullable
  spares := makes.spares
  queued := by
    rcases makes.queued with ⟨more, isMore, distinct, slots, due⟩
    refine ⟨more, isMore, distinct, slots, fun entry member => ?_⟩
    exact (due entry member).up linked makes.linked makes.evolves holds found

end Makes

/-! ## What can become of a slot at once -/

theorem IsReady.bound (ready : machine.IsReady slot) : slot < machine.arena.size :=
  Arena.lt_size_of_value? ready.isUnset

theorem IsReady.ask (ready : machine.IsReady slot) (outside : σ) :
    IsReady { machine with outside } slot :=
  ⟨ready.linked, ready.isAlive, ready.isUnset⟩

theorem IsReady.makes_postpone (ready : machine.IsReady slot) {node : PlanNode} {type : TypeRef}
    {value : ResolvedValue Object}
    (height : 1 + type.listDepth + PlanNode.typedPlaces node.typedChildren ≤ most)
    (keyed : ∀ typed ∈ node.typedChildren, PlanChildren.IsKeyed typed.2) :
    machine.Makes [slot] slot path most (some .waiting)
      (machine.postpone slot { path, node, type, value }) where
  linked := ready.linked
  becomes := .made (.refl _ _) ready.isUnset
  spares _ isOpen _ := isOpen
  queued := by
    refine ⟨[⟨slot, { path, node, type, value }⟩], rfl, List.nodup_singleton _, ?_, ?_⟩
    · intro entry member
      cases List.mem_singleton.mp member
      exact .inl (List.mem_singleton_self _)
    · intro entry member
      cases List.mem_singleton.mp member
      exact ⟨.inl ready.isUnset, ⟨[], (List.append_nil _).symm, .here _⟩, height, keyed⟩

/-- A slot is set, and new slots are made below it. -/
theorem Makes.grow {value : SlotValue} {nullable : Bool} {count : Nat}
    (linked : ((machine.arena.alloc slot nullable count).write slot value).IsLinked)
    (bound : slot < machine.arena.size)
    (evolves : ∀ old, machine.arena.value? slot = some old → old.Evolves value)
    (spared : ∀ index, machine.arena.IsOpen index → index ∉ touched → slot ≠ index)
    (shows : ((machine.arena.alloc slot nullable count).write slot value).Shows slot tree) :
    machine.Makes touched slot path most (some tree)
      { machine with arena := (machine.arena.alloc slot nullable count).write slot value } where
  linked := linked
  becomes := .made (.grow bound evolves nullable count) shows
  spares index isOpen apart := by
    have same : ((machine.arena.alloc slot nullable count).write slot value).value? index =
        machine.arena.value? index :=
      (Arena.value?_write_of_ne (spared index isOpen apart)).trans
        (Arena.value?_alloc isOpen.lt_size)
    exact isOpen.imp same.trans same.trans
  queued := ⟨[], (List.append_nil _).symm, List.nodup_nil, nofun, nofun⟩

theorem IsReady.evolves (ready : machine.IsReady slot) (value old : SlotValue)
    (holds : machine.arena.value? slot = some old) : old.Evolves value :=
  Option.some.inj (ready.isUnset.symm.trans holds) ▸ .set value

theorem IsReady.makes_write (ready : machine.IsReady slot) {value : SlotValue}
    (isSet : value ≠ .unset) (childless : value.children = [])
    (shows : (machine.arena.write slot value).Shows slot tree) :
    machine.Makes [slot] slot path most (some tree) (machine.write slot value) := by
  have linked := ready.linked.write ready.bound isSet childless
  have grown : machine.Makes [slot] slot path most (some tree)
      { machine with arena := (machine.arena.alloc slot true 0).write slot value } := by
    refine .grow ?_ ready.bound (ready.evolves value) ?_ ?_
    · rwa [Arena.alloc_zero]
    · exact fun index _ apart same => apart (same ▸ List.mem_singleton_self _)
    · rwa [Arena.alloc_zero]
  rwa [Arena.alloc_zero] at grown

theorem IsReady.makes_openItems (ready : machine.IsReady slot) (nullable : Bool) (count : Nat) :
    machine.Makes [slot] slot path most
      (some (.list nullable (List.replicate count .waiting)))
      (machine.openItems slot nullable count) := by
  refine .grow ?_ ready.bound (ready.evolves _) ?_ (Arena.shows_openItems ready.bound nullable count)
  · refine ready.linked.grow ready.bound ?_ (fun child member => .inr member)
      (Arena.nodup_next count)
    nofun
  · exact fun index _ apart same => apart (same ▸ List.mem_singleton_self _)

theorem mirrors_fail {node : PlanNode} {error : ExecutionError} (linked : machine.arena.IsLinked)
    (bound : slot < machine.arena.size) :
    machine.Mirrors [slot] slot path most (Fails slot node path error machine)
      (Run.fail node path error machine.progress) := by
  rcases linked.exists_nulls bound with ⟨arena, nulls⟩
  refine ⟨_, .intro nulls, rfl, ?_⟩
  refine ⟨nulls.isLinked linked, .failed linked (.refl _ _) nulls, fun index isOpen _ => ?_, ?_⟩
  · rcases nulls.value?_eq index with same | isNull
    · exact isOpen.imp same.trans same.trans
    · exact .inr isNull
  · exact ⟨[], (List.append_nil _).symm, List.nodup_nil, nofun, nofun⟩

/-- An object that shows fields has slots under their keys. -/
theorem exists_entries {key : String} {fields : List (String × Bool × ResponseTree)}
    (shows : machine.arena.Shows slot (.object fields)) (isNew : key ∉ OrderedMap.keys fields) :
    ∃ entries, machine.arena.value? slot = some (.object entries) ∧
      key ∉ OrderedMap.keys entries := by
  rcases shows with ⟨entries, holds, each⟩
  refine ⟨entries, holds, ?_⟩
  rwa [Arena.keys_eq_of_showsFields (Arena.showsFields_iff.mp each)]

theorem openField_eq {node : PlanNode} {entries : List (String × Nat)}
    (holds : machine.arena.value? slot = some (.object entries))
    (isNew : node.responseKey ∉ OrderedMap.keys entries) :
    machine.openField slot node =
      { machine with
        arena := (machine.arena.alloc slot (!node.returnType.isNonNull) 1).write slot
          (.object (entries ++ [(node.responseKey, machine.arena.size)])) } := by
  have allocated : (machine.arena.alloc slot (!node.returnType.isNonNull) 1).value? slot =
      some (.object entries) :=
    (Arena.value?_alloc (Arena.lt_size_of_value? holds)).trans holds
  rw [openField, Arena.addField_eq allocated isNew]

/-- An object gets a new slot for a field. -/
theorem makes_openField (linked : machine.arena.IsLinked) {node : PlanNode}
    {fields : List (String × Bool × ResponseTree)}
    (shows : machine.arena.Shows slot (.object fields))
    (isNew : node.responseKey ∉ OrderedMap.keys fields) :
    machine.Makes [] slot path most
      (some (.object (fields ++ [(node.responseKey, !node.returnType.isNonNull, .waiting)])))
      (machine.openField slot node) := by
  rcases exists_entries shows isNew with ⟨entries, holds, isNewEntry⟩
  have bound := Arena.lt_size_of_value? holds
  have isNext : machine.arena.size ∈ machine.arena.next 1 :=
    Arena.mem_next.mpr ⟨Nat.le_refl _, Nat.lt_succ_self _⟩
  rw [openField_eq holds isNewEntry]
  refine .grow (linked.grow bound ?_ ?_ ?_) bound ?_ ?_ ?_
  · nofun
  · intro child member
    simp only [SlotValue.children, OrderedMap.values, List.map_append, List.mem_append,
      List.map_cons, List.map_nil, List.mem_singleton] at member
    rcases member with old | rfl
    · exact .inl (linked.below slot _ holds child old)
    · exact .inr isNext
  · have old : ∀ child ∈ OrderedMap.values entries, child ≠ machine.arena.size := fun child member =>
      Nat.ne_of_lt (Arena.lt_size_of_parent? (linked.below slot _ holds child member))
    have distinct : (OrderedMap.values entries).Nodup := linked.distinct slot _ holds
    simp only [SlotValue.children, OrderedMap.values, List.map_append, List.map_cons, List.map_nil]
    refine List.nodup_append.mpr ⟨distinct, List.nodup_singleton _, ?_⟩
    intro child member other isOther
    cases List.mem_singleton.mp isOther
    exact old child member
  · exact fun old isOld => Option.some.inj (holds.symm.trans isOld) ▸ .extended entries _
  · rintro index isOpen - rfl
    rcases isOpen with isUnset | isNull
    · cases holds.symm.trans isUnset
    · cases holds.symm.trans isNull
  · exact Arena.shows_openField linked holds shows _ _

/-- The new slot for a field is under its key. -/
theorem exists_child_openField {node : PlanNode} {fields : List (String × Bool × ResponseTree)}
    (shows : machine.arena.Shows slot (.object fields))
    (isNew : node.responseKey ∉ OrderedMap.keys fields) :
    ∃ value, (machine.openField slot node).arena.value? slot = some value ∧
      value.child? (.field node.responseKey) = some machine.arena.size := by
  rcases exists_entries shows isNew with ⟨entries, holds, isNewEntry⟩
  have bound : slot < (machine.arena.alloc slot (!node.returnType.isNonNull) 1).size := by
    have := Arena.lt_size_of_value? holds
    rw [Arena.size_alloc]
    omega
  rw [openField_eq holds isNewEntry]
  exact ⟨_, Arena.value?_write_self bound, OrderedMap.find?_concat isNewEntry _⟩

end Machine
end GraphQL

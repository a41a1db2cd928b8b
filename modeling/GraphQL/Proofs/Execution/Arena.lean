import GraphQL.Proofs.Execution.Sight
import Mathlib.Logic.Relation

/-!
# Slots

The places of a response can be kept in an arena: each is a slot with a number, and a slot knows the
slot around it and the slots directly below. Nulls are looked for, and go on, from a slot to the one
around it, and JSON is made from a slot and those below it; nothing in these walks counts its steps.

A slot is made after the one around it. So its number is larger, and the walks end.
-/

namespace GraphQL

/-- What a slot holds. -/
inductive SlotValue where
  /-- A lazy value is waited for, or the value is not known yet. -/
  | unset
  | null
  | leaf (value : Json)
  | list (items : List Nat)
  | object (fields : List (String × Nat))

/-- A place of a response. -/
structure Slot where
  parent : Option Nat
  /-- A null here does not go on to the parent. -/
  nullable : Bool
  value : SlotValue

structure Arena where
  slots : List Slot

namespace SlotValue

/-- The slots directly below. -/
def children : SlotValue → List Nat
  | list items => items
  | object fields => OrderedMap.values fields
  | _ => []

def child? : SlotValue → PathSegment → Option Nat
  | list items, .index position => items[position]?
  | object fields, .field key => OrderedMap.find? fields key
  | _, _ => none

theorem mem_children_of_child? {value : SlotValue} {segment : PathSegment} {inner : Nat}
    (found : value.child? segment = some inner) : inner ∈ value.children := by
  cases value with
  | list items =>
      cases segment with
      | field key => cases found
      | index position => exact List.mem_of_getElem? found
  | object fields =>
      cases segment with
      | index position => cases found
      | field key => exact List.mem_map_of_mem (OrderedMap.mem_of_find? found)
  | _ => cases found

/-- What may become of the value of a slot: it is set once, fields are added, and a null stays. -/
inductive Evolves : SlotValue → SlotValue → Prop where
  | same (value : SlotValue) : Evolves value value
  | set (value : SlotValue) : Evolves unset value
  | nulled (value : SlotValue) : Evolves value null
  | extended (fields more : List (String × Nat)) : Evolves (object fields) (object (fields ++ more))

theorem Evolves.trans {first second third : SlotValue} (before : first.Evolves second)
    (after : second.Evolves third) : first.Evolves third := by
  cases before with
  | same => exact after
  | set => exact .set _
  | nulled =>
      cases after with
      | same => exact .nulled _
      | nulled => exact .nulled _
  | extended fields more =>
      cases after with
      | same => exact .extended fields more
      | nulled => exact .nulled _
      | extended _ others => exact List.append_assoc fields more others ▸ .extended fields _

/-- What is directly below a slot stays there until the slot becomes null. -/
theorem Evolves.child? {value new : SlotValue} (evolves : value.Evolves new)
    {segment : PathSegment} {inner : Nat} (found : value.child? segment = some inner) :
    new.child? segment = some inner ∨ new = null := by
  cases evolves with
  | same => exact .inl found
  | set => cases found
  | nulled => exact .inr rfl
  | extended fields more =>
      cases segment with
      | index position => cases found
      | field key => exact .inl (OrderedMap.find?_append_of_some found more)

end SlotValue

namespace Arena

variable {arena before after : Arena} {index other : Nat} {value : SlotValue} {nullable : Bool}

def size (arena : Arena) : Nat :=
  arena.slots.length

def value? (arena : Arena) (index : Nat) : Option SlotValue :=
  arena.slots[index]?.map Slot.value

def nullable? (arena : Arena) (index : Nat) : Option Bool :=
  arena.slots[index]?.map Slot.nullable

/-- The slot around a slot, if there is one. -/
def parent? (arena : Arena) (index : Nat) : Option Nat :=
  arena.slots[index]?.bind Slot.parent

/-- The numbers of the next slots. -/
def next (arena : Arena) (count : Nat) : List Nat :=
  List.range' arena.size count

/-- Adds slots that nothing is known about. -/
def alloc (arena : Arena) (parent : Nat) (nullable : Bool) (count : Nat) : Arena :=
  ⟨arena.slots ++ List.replicate count { parent := some parent, nullable, value := .unset }⟩

def write (arena : Arena) (index : Nat) (value : SlotValue) : Arena :=
  ⟨arena.slots.modify index ({ · with value })⟩

/-- Adds a slot to the fields of an object. -/
def addField (arena : Arena) (index : Nat) (key : String) (inner : Nat) : Arena :=
  match arena.value? index with
  | some (.object fields) => arena.write index (.object (OrderedMap.insert fields key inner))
  | _ => arena

/-! ## Reading what was written -/

theorem addField_eq {fields : List (String × Nat)}
    (holds : arena.value? index = some (.object fields)) {key : String}
    (isNew : key ∉ OrderedMap.keys fields) (inner : Nat) :
    arena.addField index key inner = arena.write index (.object (fields ++ [(key, inner)])) := by
  rw [addField, holds]
  exact congrArg (fun entries => arena.write index (.object entries))
    (OrderedMap.insert_of_not_mem isNew inner)

theorem lt_size_of_value? (found : arena.value? index = some value) : index < arena.size := by
  rcases Option.map_eq_some_iff.mp found with ⟨slot, isSlot, -⟩
  exact (List.getElem?_eq_some_iff.mp isSlot).1

theorem lt_size_of_parent? (found : arena.parent? index = some other) : index < arena.size := by
  rcases Option.bind_eq_some_iff.mp found with ⟨slot, isSlot, -⟩
  exact (List.getElem?_eq_some_iff.mp isSlot).1

theorem lt_size_of_nullable? (found : arena.nullable? index = some nullable) :
    index < arena.size := by
  rcases Option.map_eq_some_iff.mp found with ⟨slot, isSlot, -⟩
  exact (List.getElem?_eq_some_iff.mp isSlot).1

theorem exists_value? (bound : index < arena.size) : ∃ value, arena.value? index = some value :=
  ⟨_, by rw [value?, List.getElem?_eq_getElem bound, Option.map_some]⟩

theorem exists_nullable? (bound : index < arena.size) :
    ∃ nullable, arena.nullable? index = some nullable :=
  ⟨_, by rw [nullable?, List.getElem?_eq_getElem bound, Option.map_some]⟩

@[simp]
theorem size_write : (arena.write index value).size = arena.size :=
  List.length_modify _ _ _

@[simp]
theorem parent?_write : (arena.write index value).parent? other = arena.parent? other := by
  rw [parent?, parent?, write, List.getElem?_modify]
  cases arena.slots[other]? with
  | none => rfl
  | some slot => by_cases same : index = other <;> simp [same]

@[simp]
theorem nullable?_write : (arena.write index value).nullable? other = arena.nullable? other := by
  rw [nullable?, nullable?, write, List.getElem?_modify]
  cases arena.slots[other]? with
  | none => rfl
  | some slot => by_cases same : index = other <;> simp [same]

theorem value?_write_self (bound : index < arena.size) :
    (arena.write index value).value? index = some value := by
  rw [value?, write, List.getElem?_modify, List.getElem?_eq_getElem bound]
  simp

theorem value?_write_of_ne (different : index ≠ other) :
    (arena.write index value).value? other = arena.value? other := by
  rw [value?, value?, write, List.getElem?_modify_ne _ _ different]

/-- A slot holds what was written last to it. -/
theorem value?_write {found : SlotValue}
    (isValue : (arena.write index value).value? other = some found) :
    (index = other ∧ found = value) ∨ (index ≠ other ∧ arena.value? other = some found) := by
  by_cases same : index = other
  · subst same
    have bound := lt_size_of_value? isValue
    rw [size_write] at bound
    rw [value?_write_self bound] at isValue
    exact .inl ⟨rfl, (Option.some.inj isValue).symm⟩
  · exact .inr ⟨same, value?_write_of_ne same ▸ isValue⟩

@[simp]
theorem size_alloc {count : Nat} :
    (arena.alloc index nullable count).size = arena.size + count := by
  simp [size, alloc]

theorem mem_next {count : Nat} :
    other ∈ arena.next count ↔ arena.size ≤ other ∧ other < arena.size + count := by
  rw [next, List.mem_range'_1]

theorem nodup_next (count : Nat) : (arena.next count).Nodup :=
  List.nodup_range'

theorem slots_alloc {count : Nat} (bound : other < arena.size) :
    (arena.alloc index nullable count).slots[other]? = arena.slots[other]? :=
  List.getElem?_append_left bound

theorem value?_alloc {count : Nat} (bound : other < arena.size) :
    (arena.alloc index nullable count).value? other = arena.value? other := by
  rw [value?, slots_alloc bound, value?]

theorem parent?_alloc {count : Nat} (bound : other < arena.size) :
    (arena.alloc index nullable count).parent? other = arena.parent? other := by
  rw [parent?, slots_alloc bound, parent?]

theorem nullable?_alloc {count : Nat} (bound : other < arena.size) :
    (arena.alloc index nullable count).nullable? other = arena.nullable? other := by
  rw [nullable?, slots_alloc bound, nullable?]

theorem slots_alloc_next {count : Nat} (isNew : other ∈ arena.next count) :
    (arena.alloc index nullable count).slots[other]? =
      some { parent := some index, nullable, value := .unset } := by
  rcases mem_next.mp isNew with ⟨lower, upper⟩
  have bound : other - arena.size < count := by omega
  rw [alloc, List.getElem?_append_right lower, List.getElem?_replicate]
  exact if_pos bound

theorem value?_alloc_next {count : Nat} (isNew : other ∈ arena.next count) :
    (arena.alloc index nullable count).value? other = some .unset := by
  rw [value?, slots_alloc_next isNew, Option.map_some]

theorem parent?_alloc_next {count : Nat} (isNew : other ∈ arena.next count) :
    (arena.alloc index nullable count).parent? other = some index := by
  rw [parent?, slots_alloc_next isNew, Option.bind_some]

theorem nullable?_alloc_next {count : Nat} (isNew : other ∈ arena.next count) :
    (arena.alloc index nullable count).nullable? other = some nullable := by
  rw [nullable?, slots_alloc_next isNew, Option.map_some]

/-! ## Walks -/

/-- Going up from a slot, whether a null is met before there is no slot around. -/
inductive Climbs (arena : Arena) : Option Nat → Bool → Prop where
  | top : arena.Climbs none false
  | dead {index : Nat} (isNull : arena.value? index = some .null) : arena.Climbs (some index) true
  | up {index : Nat} {value : SlotValue} {dead : Bool} (holds : arena.value? index = some value)
      (isNot : value ≠ .null) (above : arena.Climbs (arena.parent? index) dead) :
      arena.Climbs (some index) dead

/-- A slot becomes null, and so does the slot around it if it cannot be null. -/
inductive Nulls : Arena → Nat → Arena → Prop where
  | stop {arena : Arena} {index : Nat} (bound : index < arena.size)
      (stops : arena.nullable? index = some true ∨ arena.parent? index = none) :
      Nulls arena index (arena.write index .null)
  | up {arena after : Arena} {index parent : Nat} (strict : arena.nullable? index = some false)
      (isParent : arena.parent? index = some parent)
      (above : Nulls (arena.write index .null) parent after) : Nulls arena index after

/-- The JSON of a slot and those below it. -/
inductive Renders (arena : Arena) : Nat → Json → Prop where
  | unset {index : Nat} (holds : arena.value? index = some .unset) : arena.Renders index .null
  | null {index : Nat} (holds : arena.value? index = some .null) : arena.Renders index .null
  | leaf {index : Nat} {value : Json} (holds : arena.value? index = some (.leaf value)) :
      arena.Renders index value
  | list {index : Nat} {items : List Nat} {values : List Json}
      (holds : arena.value? index = some (.list items))
      (below : List.Forall₂ arena.Renders items values) : arena.Renders index (.array values)
  | object {index : Nat} {fields : List (String × Nat)} {values : List Json}
      (holds : arena.value? index = some (.object fields))
      (below : List.Forall₂ arena.Renders (OrderedMap.values fields) values) :
      arena.Renders index (.object ((OrderedMap.keys fields).zip values))

section Renders

variable {json : Json}

theorem renders_unset_iff (holds : arena.value? index = some .unset) :
    arena.Renders index json ↔ json = .null := by
  constructor
  · intro renders
    cases renders with
    | unset => rfl
    | null isOther | leaf isOther | list isOther | object isOther => cases holds.symm.trans isOther
  · rintro rfl
    exact .unset holds

theorem renders_null_iff (holds : arena.value? index = some .null) :
    arena.Renders index json ↔ json = .null := by
  constructor
  · intro renders
    cases renders with
    | null => rfl
    | unset isOther | leaf isOther | list isOther | object isOther => cases holds.symm.trans isOther
  · rintro rfl
    exact .null holds

theorem renders_leaf_iff {leaf : Json} (holds : arena.value? index = some (.leaf leaf)) :
    arena.Renders index json ↔ json = leaf := by
  constructor
  · intro renders
    cases renders with
    | leaf same =>
        cases holds.symm.trans same
        rfl
    | unset isOther | null isOther | list isOther | object isOther => cases holds.symm.trans isOther
  · rintro rfl
    exact .leaf holds

theorem renders_list_iff {items : List Nat} (holds : arena.value? index = some (.list items)) :
    arena.Renders index json ↔
      ∃ values, List.Forall₂ arena.Renders items values ∧ json = .array values := by
  constructor
  · intro renders
    cases renders with
    | list same below =>
        cases holds.symm.trans same
        exact ⟨_, below, rfl⟩
    | unset isOther | null isOther | leaf isOther | object isOther => cases holds.symm.trans isOther
  · rintro ⟨values, below, rfl⟩
    exact .list holds below

theorem renders_object_iff {fields : List (String × Nat)}
    (holds : arena.value? index = some (.object fields)) :
    arena.Renders index json ↔
      ∃ values, List.Forall₂ arena.Renders (OrderedMap.values fields) values ∧
        json = .object ((OrderedMap.keys fields).zip values) := by
  constructor
  · intro renders
    cases renders with
    | object same below =>
        cases holds.symm.trans same
        exact ⟨_, below, rfl⟩
    | unset isOther | null isOther | leaf isOther | list isOther => cases holds.symm.trans isOther
  · rintro ⟨values, below, rfl⟩
    exact .object holds below

end Renders

/-- A walk up tells one thing only. -/
theorem Climbs.unique {start : Option Nat} {one another : Bool} (first : arena.Climbs start one)
    (second : arena.Climbs start another) : one = another := by
  induction first with
  | top =>
      cases second
      rfl
  | dead isNull =>
      cases second with
      | dead _ => rfl
      | up holds isNot above => exact absurd (Option.some.inj (holds.symm.trans isNull)) isNot
  | up holds isNot above ih =>
      cases second with
      | dead isNull => exact absurd (Option.some.inj (holds.symm.trans isNull)) isNot
      | up _ _ above => exact ih above

/-- A failure leaves one arena only. -/
theorem Nulls.unique {other : Arena} (first : Nulls before index after)
    (second : Nulls before index other) : after = other := by
  induction first with
  | stop bound stops =>
      cases second with
      | stop _ _ => rfl
      | up strict isParent above =>
          rcases stops with isNullable | isTop
          · cases strict.symm.trans isNullable
          · cases isParent.symm.trans isTop
  | up strict isParent above ih =>
      cases second with
      | stop bound stops =>
          rcases stops with isNullable | isTop
          · cases strict.symm.trans isNullable
          · cases isParent.symm.trans isTop
      | up _ isOther above =>
          cases isParent.symm.trans isOther
          exact ih above

/-! ## Links -/

/-- Every slot knows the slot around it, which was made before and is not open any more, and is
below it once. -/
structure IsLinked (arena : Arena) : Prop where
  above : ∀ index parent, arena.parent? index = some parent →
    parent < index ∧ ∃ value, arena.value? parent = some value ∧ value ≠ .unset
  below : ∀ index value, arena.value? index = some value →
    ∀ child ∈ value.children, arena.parent? child = some index
  distinct : ∀ index value, arena.value? index = some value → value.children.Nodup

theorem alloc_zero : arena.alloc index nullable 0 = arena := by
  simp [alloc]

/-- A slot is set, and new slots are among those below it. -/
theorem IsLinked.grow (linked : arena.IsLinked) (bound : index < arena.size) (isSet : value ≠ .unset)
    {count : Nat}
    (below : ∀ child ∈ value.children, arena.parent? child = some index ∨ child ∈ arena.next count)
    (distinct : value.children.Nodup) :
    ((arena.alloc index nullable count).write index value).IsLinked := by
  have bounded : index < (arena.alloc index nullable count).size := by
    rw [size_alloc]
    omega
  -- A slot is one that was there, or is new and stands below the slot that is set.
  have origin {child : Nat} (inRange : child < arena.size + count) :
      child < arena.size ∨ child ∈ arena.next count := by
    rw [mem_next]
    omega
  refine ⟨?_, ?_, ?_⟩
  · intro child parent isParent
    rw [parent?_write] at isParent
    have inRange := lt_size_of_parent? isParent
    rw [size_alloc] at inRange
    rcases origin inRange with old | isNew
    · rw [parent?_alloc old] at isParent
      rcases linked.above child parent isParent with ⟨less, outer, isOuter, isSetOuter⟩
      refine ⟨less, ?_⟩
      by_cases same : index = parent
      · exact ⟨value, same ▸ value?_write_self bounded, isSet⟩
      · rw [value?_write_of_ne same, value?_alloc (lt_size_of_value? isOuter)]
        exact ⟨outer, isOuter, isSetOuter⟩
    · rw [parent?_alloc_next isNew] at isParent
      cases isParent
      exact ⟨Nat.lt_of_lt_of_le bound (mem_next.mp isNew).1, value, value?_write_self bounded, isSet⟩
  · intro outer held isHeld child member
    rw [parent?_write]
    rcases value?_write isHeld with ⟨rfl, rfl⟩ | ⟨different, holds⟩
    · rcases below child member with isParent | isNew
      · exact (parent?_alloc (lt_size_of_parent? isParent)).trans isParent
      · exact parent?_alloc_next isNew
    · have inRange := lt_size_of_value? holds
      rw [size_alloc] at inRange
      rcases origin inRange with old | isNew
      · rw [value?_alloc old] at holds
        have isParent := linked.below outer held holds child member
        exact (parent?_alloc (lt_size_of_parent? isParent)).trans isParent
      · rw [value?_alloc_next isNew] at holds
        cases holds
        cases member
  · intro outer held isHeld
    rcases value?_write isHeld with ⟨rfl, rfl⟩ | ⟨different, holds⟩
    · exact distinct
    · have inRange := lt_size_of_value? holds
      rw [size_alloc] at inRange
      rcases origin inRange with old | isNew
      · exact linked.distinct outer held (value?_alloc old ▸ holds)
      · rw [value?_alloc_next isNew] at holds
        cases holds
        exact List.nodup_nil

theorem IsLinked.write (linked : arena.IsLinked) (bound : index < arena.size)
    (isSet : value ≠ .unset) (childless : value.children = []) :
    (arena.write index value).IsLinked := by
  have grown : ((arena.alloc index true 0).write index value).IsLinked := by
    refine linked.grow bound isSet ?_ ?_
    · rw [childless]
      nofun
    · rw [childless]
      exact List.nodup_nil
  rwa [alloc_zero] at grown

theorem IsLinked.writeNull (linked : arena.IsLinked) (bound : index < arena.size) :
    (arena.write index .null).IsLinked :=
  linked.write bound nofun rfl

/-- A slot is another one or below it. -/
def Under (arena : Arena) (top : Nat) : Nat → Prop :=
  Relation.ReflTransGen (fun outer inner => arena.parent? inner = some outer) top

namespace Under

variable {top middle : Nat}

theorem refl (arena : Arena) (top : Nat) : arena.Under top top :=
  Relation.ReflTransGen.refl

theorem below (under : arena.Under top middle) (isParent : arena.parent? index = some middle) :
    arena.Under top index :=
  Relation.ReflTransGen.tail under isParent

theorem trans (first : arena.Under top middle) (second : arena.Under middle index) :
    arena.Under top index :=
  Relation.ReflTransGen.trans first second

theorem cases (under : arena.Under top index) :
    index = top ∨ ∃ parent, arena.parent? index = some parent ∧ arena.Under top parent := by
  rcases Relation.ReflTransGen.cases_tail under with rfl | ⟨parent, above, isParent⟩
  · exact .inl rfl
  · exact .inr ⟨parent, isParent, above⟩

/-- What is below a slot was made after it. -/
theorem le (linked : arena.IsLinked) (under : arena.Under top index) : top ≤ index := by
  induction under with
  | refl => exact Nat.le_refl _
  | tail above isParent ih => exact Nat.le_trans ih (Nat.le_of_lt (linked.above _ _ isParent).1)

/-- Slots above one slot are above each other. -/
theorem total {first second : Nat} (one : arena.Under first index)
    (another : arena.Under second index) : arena.Under first second ∨ arena.Under second first := by
  induction one with
  | refl => exact .inr another
  | tail above isParent ih =>
      rcases another.cases with rfl | ⟨parent, same, below⟩
      · exact .inl (Relation.ReflTransGen.tail above isParent)
      · cases isParent.symm.trans same
        exact ih below

/-- Nothing is below two slots next to each other. -/
theorem not_of_sibling (linked : arena.IsLinked) {parent first second : Nat}
    (isFirst : arena.parent? first = some parent) (isSecond : arena.parent? second = some parent)
    (different : first ≠ second) (under : arena.Under first index) : ¬arena.Under second index := by
  have apart {one another : Nat} (isOne : arena.parent? one = some parent)
      (isAnother : arena.parent? another = some parent) (different : another ≠ one) :
      ¬arena.Under one another := by
    intro between
    rcases between.cases with same | ⟨outer, isOuter, above⟩
    · exact different same
    · cases isAnother.symm.trans isOuter
      exact Nat.not_le_of_lt (linked.above _ _ isOne).1 (above.le linked)
  intro another
  rcases under.total another with between | between
  · exact apart isFirst isSecond different.symm between
  · exact apart isSecond isFirst different between

end Under

/-! ## Nulls above -/

/-- A null is at a slot or above it. -/
def IsDead (arena : Arena) (index : Nat) : Prop :=
  ∃ top, arena.Under top index ∧ arena.value? top = some .null

theorem isDead_of_null (isNull : arena.value? index = some .null) : arena.IsDead index :=
  ⟨index, .refl _ _, isNull⟩

theorem IsDead.below (dead : arena.IsDead index) (isParent : arena.parent? other = some index) :
    arena.IsDead other := by
  rcases dead with ⟨top, under, isNull⟩
  exact ⟨top, under.below isParent, isNull⟩

theorem IsDead.above (dead : arena.IsDead index) (holds : arena.value? index = some value)
    (isNot : value ≠ .null) : ∃ parent, arena.parent? index = some parent ∧ arena.IsDead parent := by
  rcases dead with ⟨top, under, isNull⟩
  rcases under.cases with rfl | ⟨parent, isParent, above⟩
  · exact absurd (Option.some.inj (holds.symm.trans isNull)) isNot
  · exact ⟨parent, isParent, top, above, isNull⟩

/-- The walk up from a slot ends and tells whether there is a null. The slots that it visits have
smaller and smaller numbers. -/
theorem IsLinked.climbs (linked : arena.IsLinked) (bound : index < arena.size) {dead : Bool}
    (isDead : dead = true ↔ arena.IsDead index) : arena.Climbs (some index) dead := by
  induction index using Nat.strongRecOn with
  | ind index ih =>
      rcases exists_value? bound with ⟨value, holds⟩
      by_cases isNull : value = .null
      · subst isNull
        rw [isDead.mpr (isDead_of_null holds)]
        exact .dead holds
      · refine .up holds isNull ?_
        cases isParent : arena.parent? index with
        | none =>
            have alive : dead = false := by
              rw [Bool.eq_false_iff]
              intro isTrue
              rcases (isDead.mp isTrue).above holds isNull with ⟨parent, found, -⟩
              cases isParent.symm.trans found
            exact alive ▸ .top
        | some parent =>
            rcases linked.above index parent isParent with ⟨less, outer, isOuter, -⟩
            refine ih parent less (lt_size_of_value? isOuter)
              (isDead.trans ⟨fun dead => ?_, fun dead => ?_⟩)
            · rcases dead.above holds isNull with ⟨found, same, above⟩
              cases isParent.symm.trans same
              exact above
            · exact dead.below isParent

/-- A failure ends: it goes up to slots with smaller and smaller numbers. -/
theorem IsLinked.exists_nulls (linked : arena.IsLinked) (bound : index < arena.size) :
    ∃ after, Nulls arena index after := by
  induction index using Nat.strongRecOn generalizing arena with
  | ind index ih =>
      rcases exists_nullable? bound with ⟨nullable, isNullable⟩
      cases nullable with
      | true => exact ⟨_, .stop bound (.inl isNullable)⟩
      | false =>
          cases isParent : arena.parent? index with
          | none => exact ⟨_, .stop bound (.inr isParent)⟩
          | some parent =>
              rcases linked.above index parent isParent with ⟨less, outer, isOuter, -⟩
              have linkedAfter := linked.writeNull bound
              have boundAfter : parent < (arena.write index .null).size := by
                rw [size_write]
                exact lt_size_of_value? isOuter
              rcases ih parent less linkedAfter boundAfter with ⟨after, nulls⟩
              exact ⟨after, .up isNullable isParent nulls⟩

namespace Nulls

theorem bound (nulls : Nulls before index after) : index < before.size := by
  cases nulls with
  | stop bound stops => exact bound
  | up strict isParent above => exact lt_size_of_parent? isParent

theorem isLinked (nulls : Nulls before index after) (linked : before.IsLinked) : after.IsLinked := by
  induction nulls with
  | stop bound stops => exact linked.writeNull bound
  | up strict isParent above ih => exact ih (linked.writeNull (lt_size_of_parent? isParent))

theorem parent?_eq (nulls : Nulls before index after) (other : Nat) :
    after.parent? other = before.parent? other := by
  induction nulls with
  | stop bound stops => exact parent?_write
  | up strict isParent above ih => exact ih.trans parent?_write

theorem nullable?_eq (nulls : Nulls before index after) (other : Nat) :
    after.nullable? other = before.nullable? other := by
  induction nulls with
  | stop bound stops => exact nullable?_write
  | up strict isParent above ih => exact ih.trans nullable?_write

/-- Every slot holds what it held or became null. -/
theorem value?_eq (nulls : Nulls before index after) (other : Nat) :
    after.value? other = before.value? other ∨ after.value? other = some .null := by
  have written {arena : Arena} {index : Nat} (bound : index < arena.size) :
      (arena.write index .null).value? other = arena.value? other ∨
        (arena.write index .null).value? other = some .null := by
    by_cases same : index = other
    · exact .inr (same ▸ value?_write_self bound)
    · exact .inl (value?_write_of_ne same)
  induction nulls with
  | stop bound stops => exact written bound
  | up strict isParent above ih =>
      rcases ih with same | isNull
      · rw [same]
        exact written (lt_size_of_parent? isParent)
      · exact .inr isNull

theorem value?_self (nulls : Nulls before index after) : after.value? index = some .null := by
  cases nulls with
  | stop bound stops => exact value?_write_self bound
  | up strict isParent above =>
      rcases above.value?_eq index with same | isNull
      · exact same.trans (value?_write_self (lt_size_of_parent? isParent))
      · exact isNull

end Nulls

/-! ## Later arenas -/

/-- Slots stay where they are, and their values evolve. -/
structure Evolves (before after : Arena) : Prop where
  value : ∀ index old, before.value? index = some old →
    ∃ new, after.value? index = some new ∧ old.Evolves new
  parent : ∀ index, index < before.size → after.parent? index = before.parent? index
  nullable : ∀ index, index < before.size → after.nullable? index = before.nullable? index

namespace Evolves

theorem refl (arena : Arena) : arena.Evolves arena where
  value _ old holds := ⟨old, holds, .same old⟩
  parent _ _ := rfl
  nullable _ _ := rfl

theorem size_le (evolves : before.Evolves after) : before.size ≤ after.size := by
  by_contra less
  rcases exists_value? (Nat.lt_of_not_le less) with ⟨value, holds⟩
  rcases evolves.value _ value holds with ⟨new, later, -⟩
  exact Nat.lt_irrefl _ (lt_size_of_value? later)

theorem trans {last : Arena} (first : before.Evolves after) (second : after.Evolves last) :
    before.Evolves last where
  value index old holds := by
    rcases first.value index old holds with ⟨middle, isMiddle, becomes⟩
    rcases second.value index middle isMiddle with ⟨new, isNew, later⟩
    exact ⟨new, isNew, becomes.trans later⟩
  parent index bound := (second.parent index (Nat.lt_of_lt_of_le bound first.size_le)).trans
    (first.parent index bound)
  nullable index bound := (second.nullable index (Nat.lt_of_lt_of_le bound first.size_le)).trans
    (first.nullable index bound)

theorem write (evolves : ∀ old, arena.value? index = some old → old.Evolves value) :
    arena.Evolves (arena.write index value) where
  value other old holds := by
    by_cases same : index = other
    · subst same
      exact ⟨value, value?_write_self (lt_size_of_value? holds), evolves old holds⟩
    · exact ⟨old, (value?_write_of_ne same).trans holds, .same old⟩
  parent _ _ := parent?_write
  nullable _ _ := nullable?_write

theorem alloc (arena : Arena) (index : Nat) (nullable : Bool) (count : Nat) :
    arena.Evolves (arena.alloc index nullable count) where
  value _ old holds := ⟨old, (value?_alloc (lt_size_of_value? holds)).trans holds, .same old⟩
  parent _ bound := parent?_alloc bound
  nullable _ bound := nullable?_alloc bound

theorem under (evolves : before.Evolves after) {top : Nat} (under : before.Under top index) :
    after.Under top index := by
  induction under with
  | refl => exact .refl _ _
  | tail above isParent ih =>
      exact ih.below ((evolves.parent _ (lt_size_of_parent? isParent)).trans isParent)

/-- A slot that was there is not below others than before. -/
theorem under_of_under (evolves : before.Evolves after) (linked : after.IsLinked) {top : Nat}
    (under : after.Under top index) (bound : index < before.size) : before.Under top index := by
  induction under with
  | refl => exact .refl _ _
  | tail above isParent ih =>
      have less := (linked.above _ _ isParent).1
      exact (ih (Nat.lt_trans less bound)).below ((evolves.parent _ bound).symm.trans isParent)

theorem null (evolves : before.Evolves after) (isNull : before.value? index = some .null) :
    after.value? index = some .null := by
  rcases evolves.value index _ isNull with ⟨new, holds, later⟩
  cases later <;> exact holds

end Evolves

theorem Nulls.evolves (nulls : Nulls before index after) : before.Evolves after where
  value other old holds := by
    rcases nulls.value?_eq other with same | isNull
    · exact ⟨old, same.trans holds, .same old⟩
    · exact ⟨.null, isNull, .nulled old⟩
  parent other _ := nulls.parent?_eq other
  nullable other _ := nulls.nullable?_eq other

end Arena
end GraphQL

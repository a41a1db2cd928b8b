import GraphQL.Proofs.Execution.Arena
import Mathlib.Data.List.Forall2

/-!
# Trees in an arena

A slot shows a response tree if the slots below it hold what the tree has at the same places. What
happens to a slot and those below it does not change what slots beside it show. So a result for a
slot, or its failure, is seen in every tree that the slot is a part of, as putting the result at its
place in that tree.
-/

namespace GraphQL
namespace Arena

variable {arena before after : Arena}

/-! ## Slots that show trees -/

mutual

/-- A slot and those below it hold what is in a tree. -/
def Shows (arena : Arena) (index : Nat) : ResponseTree → Prop
  | .waiting => arena.value? index = some .unset
  | .null => arena.value? index = some .null
  | .leaf value => arena.value? index = some (.leaf value)
  | .list nullable items =>
      ∃ indices, arena.value? index = some (.list indices) ∧
        arena.ShowsItems nullable indices items
  | .object fields =>
      ∃ entries, arena.value? index = some (.object entries) ∧ arena.ShowsFields entries fields

def ShowsItems (arena : Arena) (nullable : Bool) : List Nat → List ResponseTree → Prop
  | indices, [] => indices = []
  | indices, item :: rest =>
      ∃ index others, indices = index :: others ∧ arena.nullable? index = some nullable ∧
        arena.Shows index item ∧ arena.ShowsItems nullable others rest

def ShowsFields (arena : Arena) :
    List (String × Nat) → List (String × Bool × ResponseTree) → Prop
  | entries, [] => entries = []
  | entries, (key, nullable, value) :: rest =>
      ∃ index others, entries = (key, index) :: others ∧ arena.nullable? index = some nullable ∧
        arena.Shows index value ∧ arena.ShowsFields others rest

end

/-- A slot of a list shows an item. -/
def ShowsItem (arena : Arena) (nullable : Bool) (index : Nat) (item : ResponseTree) : Prop :=
  arena.nullable? index = some nullable ∧ arena.Shows index item

/-- A slot of an object shows a field. -/
def ShowsField (arena : Arena) (entry : String × Nat) (field : String × Bool × ResponseTree) :
    Prop :=
  entry.1 = field.1 ∧ arena.nullable? entry.2 = some field.2.1 ∧ arena.Shows entry.2 field.2.2

theorem showsItems_iff {nullable : Bool} {indices : List Nat} {items : List ResponseTree} :
    arena.ShowsItems nullable indices items ↔
      List.Forall₂ (arena.ShowsItem nullable) indices items := by
  induction items generalizing indices with
  | nil => rw [ShowsItems, List.forall₂_nil_right_iff]
  | cons item rest ih =>
      rw [ShowsItems, List.forall₂_cons_right_iff]
      constructor
      · rintro ⟨index, others, rfl, isNullable, shows, more⟩
        exact ⟨index, others, ⟨isNullable, shows⟩, ih.mp more, rfl⟩
      · rintro ⟨index, others, ⟨isNullable, shows⟩, more, rfl⟩
        exact ⟨index, others, rfl, isNullable, shows, ih.mpr more⟩

theorem showsFields_iff {entries : List (String × Nat)}
    {fields : List (String × Bool × ResponseTree)} :
    arena.ShowsFields entries fields ↔ List.Forall₂ arena.ShowsField entries fields := by
  induction fields generalizing entries with
  | nil => rw [ShowsFields, List.forall₂_nil_right_iff]
  | cons field rest ih =>
      rcases field with ⟨key, nullable, value⟩
      rw [ShowsFields, List.forall₂_cons_right_iff]
      constructor
      · rintro ⟨index, others, rfl, isNullable, shows, more⟩
        exact ⟨(key, index), others, ⟨rfl, isNullable, shows⟩, ih.mp more, rfl⟩
      · rintro ⟨⟨name, index⟩, others, ⟨rfl, isNullable, shows⟩, more, rfl⟩
        exact ⟨index, others, rfl, isNullable, shows, ih.mpr more⟩

/-! ## Frames -/

/-- Slots above, beside and apart from a slot hold what they held. -/
structure Within (before : Arena) (top : Nat) (after : Arena) : Prop extends
    before.Evolves after where
  same : ∀ index, index < before.size → ¬before.Under top index →
    after.value? index = before.value? index

namespace Within

variable {top : Nat}

theorem refl (arena : Arena) (top : Nat) : arena.Within top arena :=
  ⟨.refl arena, fun _ _ _ => rfl⟩

theorem trans {last : Arena} (first : before.Within top after) (linked : after.IsLinked)
    (second : after.Within top last) : before.Within top last where
  toEvolves := first.toEvolves.trans second.toEvolves
  same index bound apart := by
    have later := second.same index (Nat.lt_of_lt_of_le bound first.size_le) fun under =>
      apart (first.under_of_under linked under bound)
    exact later.trans (first.same index bound apart)

theorem mono {outer : Nat} (within : before.Within top after) (under : before.Under outer top) :
    before.Within outer after where
  toEvolves := within.toEvolves
  same index bound apart := within.same index bound fun below => apart (under.trans below)

theorem write {value : SlotValue} (within : before.Within top after) (linked : after.IsLinked)
    (evolves : ∀ old, after.value? top = some old → old.Evolves value) :
    before.Within top (after.write top value) :=
  within.trans linked
    { toEvolves := .write evolves
      same := fun _ _ apart => value?_write_of_ne fun same => apart (same ▸ .refl _ _) }

end Within

mutual

/-- What a slot shows depends only on the slot and those below it. -/
theorem Shows.frame (linked : before.IsLinked) (evolves : before.Evolves after) {index : Nat}
    (same : ∀ below, before.Under index below → after.value? below = before.value? below)
    (tree : ResponseTree) (shows : before.Shows index tree) : after.Shows index tree := by
  have here := same index (.refl _ _)
  match tree with
  | .waiting | .null | .leaf _ => exact here.trans shows
  | .list nullable items =>
      rcases shows with ⟨indices, holds, each⟩
      refine ⟨indices, here.trans holds, ShowsItems.frame linked evolves ?_ items each⟩
      intro inner member below under
      have isParent := linked.below index _ holds inner member
      exact same below (Under.trans (.below (.refl _ _) isParent) under)
  | .object fields =>
      rcases shows with ⟨entries, holds, each⟩
      refine ⟨entries, here.trans holds, ShowsFields.frame linked evolves ?_ fields each⟩
      intro inner member below under
      have isParent := linked.below index _ holds inner member
      exact same below (Under.trans (.below (.refl _ _) isParent) under)

theorem ShowsItems.frame (linked : before.IsLinked) (evolves : before.Evolves after)
    {nullable : Bool} {indices : List Nat}
    (same : ∀ inner ∈ indices, ∀ below, before.Under inner below →
      after.value? below = before.value? below)
    (items : List ResponseTree) (each : before.ShowsItems nullable indices items) :
    after.ShowsItems nullable indices items := by
  match items with
  | [] => exact each
  | item :: rest =>
      rcases each with ⟨index, others, rfl, isNullable, shows, more⟩
      refine ⟨index, others, rfl, ?_, ?_, ?_⟩
      · exact (evolves.nullable index (lt_size_of_nullable? isNullable)).trans isNullable
      · exact Shows.frame linked evolves (same index List.mem_cons_self) item shows
      · exact ShowsItems.frame linked evolves
          (fun inner member => same inner (List.mem_cons_of_mem _ member)) rest more

theorem ShowsFields.frame (linked : before.IsLinked) (evolves : before.Evolves after)
    {entries : List (String × Nat)}
    (same : ∀ inner ∈ OrderedMap.values entries, ∀ below, before.Under inner below →
      after.value? below = before.value? below)
    (fields : List (String × Bool × ResponseTree)) (each : before.ShowsFields entries fields) :
    after.ShowsFields entries fields := by
  match fields with
  | [] => exact each
  | (key, nullable, value) :: rest =>
      rcases each with ⟨index, others, rfl, isNullable, shows, more⟩
      refine ⟨index, others, rfl, ?_, ?_, ?_⟩
      · exact (evolves.nullable index (lt_size_of_nullable? isNullable)).trans isNullable
      · exact Shows.frame linked evolves (same index List.mem_cons_self) value shows
      · exact ShowsFields.frame linked evolves
          (fun inner member => same inner (List.mem_cons_of_mem _ member)) rest more

end

/-- What a slot shows stays as it is when something happens to a slot beside it. -/
theorem Within.shows_sibling {parent first second : Nat} {tree : ResponseTree}
    (within : before.Within first after) (linked : before.IsLinked)
    (isFirst : before.parent? first = some parent) (isSecond : before.parent? second = some parent)
    (different : first ≠ second) (shows : before.Shows second tree) : after.Shows second tree := by
  refine shows.frame linked within.toEvolves ?_
  intro below under
  have apart : ¬before.Under first below :=
    Under.not_of_sibling linked isSecond isFirst different.symm under
  rcases under.cases with rfl | ⟨outer, isOuter, -⟩
  · exact within.same _ (lt_size_of_parent? isSecond) apart
  · exact within.same _ (lt_size_of_parent? isOuter) apart

/-! ## Parts of a tree that is shown -/

theorem exists_of_forall₂_getElem? {α β : Type} {relation : α → β → Prop} {first : List α}
    {second : List β} (each : List.Forall₂ relation first second) {position : Nat} {item : α}
    (found : first[position]? = some item) :
    ∃ other, second[position]? = some other ∧ relation item other := by
  induction each generalizing position with
  | nil => cases found
  | cons head tail ih =>
      cases position with
      | zero =>
          cases found
          exact ⟨_, rfl, head⟩
      | succ position => exact ih found

theorem ShowsFields.exists_field {entries : List (String × Nat)}
    {fields : List (String × Bool × ResponseTree)}
    (each : List.Forall₂ arena.ShowsField entries fields) {key : String} {inner : Nat}
    (found : OrderedMap.find? entries key = some inner) :
    ∃ nullable value, OrderedMap.find? fields key = some (nullable, value) ∧
      arena.nullable? inner = some nullable ∧ arena.Shows inner value := by
  induction each with
  | nil => cases found
  | @cons entry field _ _ head tail ih =>
      rcases entry with ⟨name, index⟩
      rcases field with ⟨_, nullable, value⟩
      rcases head with ⟨rfl, isNullable, shows⟩
      rw [OrderedMap.find?_cons] at found ⊢
      by_cases same : name = key
      · rw [if_pos same] at found
        cases found
        exact ⟨nullable, value, if_pos same, isNullable, shows⟩
      · rw [if_neg same] at found ⊢
        exact ih found

/-- A slot directly below one that shows a tree shows the part of the tree there. -/
theorem Shows.exists_branch {index inner : Nat} {tree : ResponseTree} {value : SlotValue}
    {segment : PathSegment} (shows : arena.Shows index tree)
    (holds : arena.value? index = some value) (found : value.child? segment = some inner) :
    ∃ nullable branch, tree.branch? segment = some (nullable, branch) ∧
      arena.nullable? inner = some nullable ∧ arena.Shows inner branch := by
  cases tree with
  | list nullable items =>
      rcases shows with ⟨indices, isList, each⟩
      cases holds.symm.trans isList
      cases segment with
      | field key => cases found
      | index position =>
          rcases exists_of_forall₂_getElem? (showsItems_iff.mp each) found with
            ⟨item, isItem, isNullable, below⟩
          exact ⟨nullable, item, by rw [ResponseTree.branch?, isItem]; rfl, isNullable, below⟩
  | object fields =>
      rcases shows with ⟨entries, isObject, each⟩
      cases holds.symm.trans isObject
      cases segment with
      | index position => cases found
      | field key => exact ShowsFields.exists_field (showsFields_iff.mp each) found
  | _ =>
      cases holds.symm.trans shows
      cases found

theorem forall₂_imp_of_mem {α β : Type} {before after : α → β → Prop} {first : List α}
    {second : List β} (each : List.Forall₂ before first second)
    (imp : ∀ item ∈ first, ∀ other, before item other → after item other) :
    List.Forall₂ after first second := by
  induction each with
  | nil => exact .nil
  | cons head tail ih =>
      refine .cons (imp _ List.mem_cons_self _ head) (ih ?_)
      exact fun item member => imp item (List.mem_cons_of_mem _ member)

theorem forall₂_set {α β : Type} {before after : α → β → Prop} {first : List α} {second : List β}
    (each : List.Forall₂ before first second) (distinct : first.Nodup) {position : Nat} {item : α}
    (found : first[position]? = some item) {new : β}
    (kept : ∀ other ∈ first, other ≠ item → ∀ old, before other old → after other old)
    (replaced : ∀ old, before item old → after item new) :
    List.Forall₂ after first (second.set position new) := by
  induction each generalizing position with
  | nil => exact .nil
  | cons head tail ih =>
      rcases List.nodup_cons.mp distinct with ⟨isNew, distinct⟩
      cases position with
      | zero =>
          cases found
          refine .cons (replaced _ head) (forall₂_imp_of_mem tail fun other member => ?_)
          exact kept other (List.mem_cons_of_mem _ member) (fun same => isNew (same ▸ member))
      | succ position =>
          have member : item ∈ _ := List.mem_of_getElem? (found : _[position]? = some item)
          refine .cons (kept _ List.mem_cons_self (fun same => isNew (same ▸ member)) _ head) ?_
          exact ih distinct found fun other later => kept other (List.mem_cons_of_mem _ later)

/-- Replacing a field of an object replaces what its slot shows. -/
theorem ShowsFields.insert {entries : List (String × Nat)}
    {fields : List (String × Bool × ResponseTree)}
    (each : List.Forall₂ before.ShowsField entries fields)
    (distinct : (OrderedMap.values entries).Nodup) {key : String} {inner : Nat} {nullable : Bool}
    (found : OrderedMap.find? entries key = some inner) {new : ResponseTree}
    (kept : ∀ entry ∈ entries, entry.2 ≠ inner → ∀ field, before.ShowsField entry field →
      after.ShowsField entry field)
    (isNullable : after.nullable? inner = some nullable) (shows : after.Shows inner new) :
    List.Forall₂ after.ShowsField entries (OrderedMap.insert fields key (nullable, new)) := by
  induction each with
  | nil => cases found
  | @cons entry field rest _ head tail ih =>
      rcases entry with ⟨name, index⟩
      rcases field with ⟨other, old⟩
      have same : name = other := head.1
      subst same
      rcases List.nodup_cons.mp distinct with ⟨isNew, distinct⟩
      rw [OrderedMap.find?_cons] at found
      rw [OrderedMap.insert]
      by_cases same : name = key
      · rw [if_pos same] at found ⊢
        cases found
        refine .cons ⟨rfl, isNullable, shows⟩ (forall₂_imp_of_mem tail fun entry member => ?_)
        refine kept entry (List.mem_cons_of_mem _ member) fun same => isNew ?_
        have isThere : entry.2 ∈ OrderedMap.values rest := List.mem_map_of_mem member
        rwa [same] at isThere
      · rw [if_neg same] at found ⊢
        have member : inner ∈ OrderedMap.values rest :=
          List.mem_map_of_mem (OrderedMap.mem_of_find? found)
        have apart : index ≠ inner := fun same => isNew (same ▸ member)
        refine .cons (kept _ List.mem_cons_self apart _ head) ?_
        exact ih distinct found fun entry later => kept entry (List.mem_cons_of_mem _ later)

/-- What a slot shows when something happened to a slot directly below it. -/
theorem Shows.withBranch {index inner : Nat} {tree branch : ResponseTree} {value : SlotValue}
    {segment : PathSegment} (shows : before.Shows index tree) (linked : before.IsLinked)
    (holds : before.value? index = some value) (found : value.child? segment = some inner)
    (within : before.Within inner after) (new : after.Shows inner branch) :
    after.Shows index (tree.withBranch segment branch) := by
  have isParent {child : Nat} (member : child ∈ value.children) :
      before.parent? child = some index :=
    linked.below index value holds child member
  have isInner := isParent (SlotValue.mem_children_of_child? found)
  -- The slot itself is above what changed.
  have later : after.value? index = some value := by
    refine (within.same index (lt_size_of_value? holds) fun under => ?_).trans holds
    exact Nat.not_le_of_lt (linked.above _ _ isInner).1 (under.le linked)
  have kept {child : Nat} (member : child ∈ value.children) (different : child ≠ inner)
      {tree : ResponseTree} (shows : before.Shows child tree) : after.Shows child tree :=
    within.shows_sibling linked isInner (isParent member) different.symm shows
  have nullable {child : Nat} {nullable : Bool} (isNullable : before.nullable? child = some nullable) :
      after.nullable? child = some nullable :=
    (within.nullable child (lt_size_of_nullable? isNullable)).trans isNullable
  have distinct := linked.distinct index value holds
  cases tree with
  | list nullableItems items =>
      rcases shows with ⟨indices, isList, each⟩
      cases holds.symm.trans isList
      cases segment with
      | field key => cases found
      | index position =>
          refine ⟨indices, later, showsItems_iff.mpr ?_⟩
          refine forall₂_set (showsItems_iff.mp each) distinct found ?_ ?_
          · exact fun other member different old item =>
              ⟨nullable item.1, kept member different item.2⟩
          · exact fun old item => ⟨nullable item.1, new⟩
  | object fields =>
      rcases shows with ⟨entries, isObject, each⟩
      cases holds.symm.trans isObject
      cases segment with
      | index position => cases found
      | field key =>
          have isEach := showsFields_iff.mp each
          rcases ShowsFields.exists_field isEach found with ⟨isNullable, value, isField, known, -⟩
          have same : (ResponseTree.object fields).withBranch (.field key) branch =
              .object (OrderedMap.insert fields key (isNullable, branch)) := by
            simp only [ResponseTree.withBranch, isField]
          rw [same]
          refine ⟨entries, later, showsFields_iff.mpr ?_⟩
          refine ShowsFields.insert isEach distinct found ?_ (nullable known) new
          exact fun entry member different field shown =>
            ⟨shown.1, nullable shown.2.1, kept (List.mem_map_of_mem member) different shown.2.2⟩
  | _ =>
      cases holds.symm.trans shows
      cases found

mutual

/-- The JSON of a slot is that of the tree that it shows, and there is no other. -/
theorem Shows.renders_iff {index : Nat} (tree : ResponseTree) (shows : arena.Shows index tree)
    {json : Json} : arena.Renders index json ↔ json = tree.toJson := by
  match tree with
  | .waiting => exact renders_unset_iff shows
  | .null => exact renders_null_iff shows
  | .leaf value => exact renders_leaf_iff shows
  | .list nullable items =>
      rcases shows with ⟨indices, holds, each⟩
      rw [renders_list_iff holds, ResponseTree.toJson]
      simp only [ShowsItems.renders_iff items each, exists_eq_left]
  | .object fields =>
      rcases shows with ⟨entries, holds, each⟩
      rw [renders_object_iff holds, ResponseTree.toJson]
      constructor
      · rintro ⟨values, below, rfl⟩
        exact congrArg Json.object ((ShowsFields.renders_iff fields each).mp ⟨values, below, rfl⟩)
      · rintro rfl
        rcases (ShowsFields.renders_iff fields each).mpr rfl with ⟨values, below, same⟩
        exact ⟨values, below, congrArg Json.object same⟩

theorem ShowsItems.renders_iff {nullable : Bool} {indices : List Nat} (items : List ResponseTree)
    (each : arena.ShowsItems nullable indices items) {values : List Json} :
    List.Forall₂ arena.Renders indices values ↔ values = ResponseTree.itemsToJson items := by
  match items with
  | [] =>
      cases each
      exact List.forall₂_nil_left_iff
  | item :: rest =>
      rcases each with ⟨index, others, rfl, -, shows, more⟩
      rw [List.forall₂_cons_left_iff]
      simp only [Shows.renders_iff item shows, ShowsItems.renders_iff rest more,
        ResponseTree.itemsToJson, exists_and_left, exists_eq_left]

theorem ShowsFields.renders_iff {entries : List (String × Nat)}
    (fields : List (String × Bool × ResponseTree)) (each : arena.ShowsFields entries fields)
    {shown : List (String × Json)} :
    (∃ values, List.Forall₂ arena.Renders (OrderedMap.values entries) values ∧
        shown = (OrderedMap.keys entries).zip values) ↔
      shown = ResponseTree.fieldsToJson fields := by
  match fields with
  | [] =>
      cases each
      constructor
      · rintro ⟨values, below, rfl⟩
        rfl
      · rintro rfl
        exact ⟨[], .nil, rfl⟩
  | (key, nullable, value) :: rest =>
      rcases each with ⟨index, others, rfl, -, shows, more⟩
      rw [ResponseTree.fieldsToJson]
      constructor
      · rintro ⟨values, below, rfl⟩
        rcases List.forall₂_cons_left_iff.mp below with ⟨first, later, renders, belowLater, rfl⟩
        rw [← (Shows.renders_iff value shows).mp renders,
          ← (ShowsFields.renders_iff rest more).mp ⟨later, belowLater, rfl⟩]
        rfl
      · rintro rfl
        rcases (ShowsFields.renders_iff rest more).mpr rfl with ⟨later, below, same⟩
        exact ⟨_, .cons ((Shows.renders_iff value shows).mpr rfl) below, congrArg _ same⟩

end

/-! ## Results for slots -/

/-- What becomes of a slot: it shows what was made for it, or nothing was made and it became null
with the slots around it that cannot be null. -/
inductive Becomes (before : Arena) (index : Nat) : Option ResponseTree → Arena → Prop where
  | made {after : Arena} {tree : ResponseTree} (within : before.Within index after)
      (shows : after.Shows index tree) : before.Becomes index (some tree) after
  | failed {middle after : Arena} (linked : middle.IsLinked) (within : before.Within index middle)
      (nulls : Nulls middle index after) : before.Becomes index none after

variable {index inner : Nat} {tree branch : ResponseTree} {value : SlotValue}
  {segment : PathSegment} {nullable : Bool} {made : Option ResponseTree} {path : ResponsePath}

theorem Becomes.evolves (becomes : before.Becomes index made after) : before.Evolves after := by
  cases becomes with
  | made within shows => exact within.toEvolves
  | failed linked within nulls => exact within.toEvolves.trans nulls.evolves

/-- What becomes of a slot becomes of the slot around it as a part of its tree. -/
theorem Becomes.up (becomes : before.Becomes inner made after) (linked : before.IsLinked)
    (shows : before.Shows index tree) (holds : before.value? index = some value)
    (found : value.child? segment = some inner) (isNullable : before.nullable? inner = some nullable) :
    before.Becomes index
      ((ResponseTree.filled nullable made).map (tree.withBranch segment)) after := by
  have isParent := linked.below index value holds inner (SlotValue.mem_children_of_child? found)
  have under : before.Under index inner := .below (.refl _ _) isParent
  have bound := lt_size_of_parent? isParent
  cases becomes with
  | made within new =>
      exact .made (within.mono under) (shows.withBranch linked holds found within new)
  | @failed middle _ linkedMiddle within nulls =>
      have isNullableLater := (within.nullable inner bound).trans isNullable
      have isParentLater := (within.parent inner bound).trans isParent
      have nulled : before.Within inner (middle.write inner .null) :=
        within.write linkedMiddle fun old _ => .nulled old
      have inRange := nulls.bound
      cases nulls with
      | stop bound stops =>
          have isTrue : nullable = true := by
            rcases stops with isTrue | isTop
            · exact Option.some.inj (isNullableLater.symm.trans isTrue)
            · cases isParentLater.symm.trans isTop
          subst isTrue
          have isNull : (middle.write inner .null).Shows inner .null := value?_write_self bound
          exact .made (nulled.mono under) (shows.withBranch linked holds found nulled isNull)
      | up strict isOuter above =>
          cases isNullableLater.symm.trans strict
          cases isParentLater.symm.trans isOuter
          exact .failed (linkedMiddle.writeNull inRange) (nulled.mono under) above

/-! ## Paths -/

/-- A path leads from a slot to one below it, or it led there until a slot on it became null. -/
inductive Leads (arena : Arena) : Nat → ResponsePath → Nat → Prop where
  | here (index : Nat) : arena.Leads index [] index
  | into {index inner target : Nat} {value : SlotValue} {segment : PathSegment}
      {rest : ResponsePath} (holds : arena.value? index = some value)
      (found : value.child? segment = some inner) (further : arena.Leads inner rest target) :
      arena.Leads index (segment :: rest) target
  | nulled {index target : Nat} (path : ResponsePath) (isNull : arena.value? index = some .null)
      (under : arena.Under index target) : arena.Leads index path target

variable {target : Nat}

theorem Leads.under (leads : arena.Leads index path target) (linked : arena.IsLinked) :
    arena.Under index target := by
  induction leads with
  | here => exact .refl _ _
  | into holds found further ih =>
      have isParent := linked.below _ _ holds _ (SlotValue.mem_children_of_child? found)
      exact Under.trans (.below (.refl _ _) isParent) ih
  | nulled path isNull under => exact under

/-- A path to a slot directly below one goes on from there. -/
theorem Leads.up (leads : after.Leads inner path target) (linked : before.IsLinked)
    (linkedAfter : after.IsLinked) (evolves : before.Evolves after)
    (holds : before.value? index = some value) (found : value.child? segment = some inner) :
    after.Leads index (segment :: path) target := by
  rcases evolves.value index value holds with ⟨new, isNew, becomes⟩
  rcases becomes.child? found with still | rfl
  · exact .into isNew still leads
  · have isParent := linked.below index value holds inner (SlotValue.mem_children_of_child? found)
    have isParentLater := (evolves.parent inner (lt_size_of_parent? isParent)).trans isParent
    exact .nulled _ isNew (Under.trans (.below (.refl _ _) isParentLater) (leads.under linkedAfter))

theorem Leads.evolves (leads : before.Leads index path target) (linked : before.IsLinked)
    (linkedAfter : after.IsLinked) (evolves : before.Evolves after) :
    after.Leads index path target := by
  induction leads with
  | here => exact .here _
  | into holds found further ih => exact ih.up linked linkedAfter evolves holds found
  | nulled path isNull under => exact .nulled path (evolves.null isNull) (evolves.under under)

theorem Leads.eq_or_null (leads : arena.Leads index [] target) :
    target = index ∨ arena.value? index = some .null := by
  cases leads with
  | here => exact .inl rfl
  | nulled _ isNull under => exact .inr isNull

theorem Leads.trans {middle : Nat} {rest : ResponsePath} (first : arena.Leads index path middle)
    (second : arena.Leads middle rest target) (linked : arena.IsLinked) :
    arena.Leads index (path ++ rest) target := by
  induction first with
  | here => exact second
  | into holds found further ih => exact .into holds found (ih second)
  | nulled path isNull under => exact .nulled _ isNull (under.trans (second.under linked))

theorem Shows.value?_eq_null_iff (shows : arena.Shows index tree) :
    arena.value? index = some .null ↔ tree = .null := by
  constructor
  · intro isNull
    cases tree with
    | null => rfl
    | list nullable items =>
        rcases shows with ⟨indices, holds, -⟩
        cases holds.symm.trans isNull
    | object fields =>
        rcases shows with ⟨entries, holds, -⟩
        cases holds.symm.trans isNull
    | _ => cases (shows : arena.value? index = some _).symm.trans isNull
  · rintro rfl
    exact shows

/-- A list that is still shown has the slots that it had. -/
theorem Shows.value?_list {items : List ResponseTree}
    (shows : after.Shows index (.list nullable items)) (evolves : before.Evolves after)
    {indices : List Nat} (holds : before.value? index = some (.list indices)) :
    after.value? index = some (.list indices) := by
  rcases shows with ⟨others, isList, -⟩
  rcases evolves.value index _ holds with ⟨new, isNew, later⟩
  cases isList.symm.trans isNew
  cases later
  exact isNew

theorem isLive_null (path : ResponsePath) : ResponseTree.null.isLive path = false := by
  cases path <;> rfl

/-- The slot that a path leads to is dead if a null is at the path or above it in the tree that is
shown. -/
theorem Leads.isLive_iff (leads : arena.Leads index path target) (linked : arena.IsLinked)
    (shows : arena.Shows index tree)
    (alone : ∀ top, arena.Under top index → arena.value? top = some .null → top = index) :
    tree.isLive path = true ↔ ¬arena.IsDead target := by
  induction leads generalizing tree with
  | here index =>
      have dead : arena.IsDead index ↔ tree = .null := by
        rw [← shows.value?_eq_null_iff]
        refine ⟨?_, isDead_of_null⟩
        rintro ⟨top, under, isNull⟩
        exact alone top under isNull ▸ isNull
      rw [dead]
      cases tree <;> simp [ResponseTree.isLive, ResponseTree.at?]
  | @into index inner target value segment rest holds found further ih =>
      rcases shows.exists_branch holds found with ⟨nullable, branch, isBranch, -, below⟩
      rw [ResponseTree.isLive_of_branch? isBranch]
      refine ih below fun top under isNull => ?_
      have isParent := linked.below _ _ holds _ (SlotValue.mem_children_of_child? found)
      rcases under.cases with same | ⟨parent, isOuter, above⟩
      · exact same.symm
      · cases isParent.symm.trans isOuter
        cases alone top above isNull
        cases holds.symm.trans isNull
        cases found
  | nulled path isNull under =>
      cases shows.value?_eq_null_iff.mp isNull
      have dead : arena.IsDead _ := ⟨_, under, isNull⟩
      simp [isLive_null, dead]

/-- A result for a slot is put into a tree at the path that leads to the slot. -/
theorem Becomes.place (becomes : before.Becomes target made after)
    (leads : before.Leads index path target) (linked : before.IsLinked)
    (shows : before.Shows index tree) (isLive : tree.isLive path = true) :
    before.Becomes index (tree.place path made) after := by
  induction leads generalizing tree with
  | here index => rwa [ResponseTree.place_nil]
  | into holds found further ih =>
      rcases shows.exists_branch holds found with ⟨nullable, branch, isBranch, isNullable, below⟩
      rw [ResponseTree.isLive_of_branch? isBranch] at isLive
      rw [ResponseTree.place_of_branch? isBranch]
      exact (ih becomes below isLive).up linked shows holds found isNullable
  | nulled path isNull under =>
      cases shows.value?_eq_null_iff.mp isNull
      cases (isLive_null path).symm.trans isLive

/-- A slot that was not dead and shows something is not dead. -/
theorem Becomes.not_isDead (becomes : before.Becomes index (some tree) after)
    (linked : before.IsLinked) (linkedAfter : after.IsLinked) (bound : index < before.size)
    (isAlive : ¬before.IsDead index) (isNot : tree ≠ .null) : ¬after.IsDead index := by
  rcases becomes with ⟨within, shows⟩
  rintro ⟨top, under, isNull⟩
  by_cases same : top = index
  · exact isNot (shows.value?_eq_null_iff.mp (same ▸ isNull))
  · have above := within.under_of_under linkedAfter under bound
    have apart : ¬before.Under index top := fun below =>
      same (Nat.le_antisymm (above.le linked) (below.le linked))
    have less := Nat.lt_of_le_of_lt (above.le linked) bound
    exact isAlive ⟨top, above, (within.same top less apart).symm.trans isNull⟩

theorem Becomes.isDead (becomes : before.Becomes index none after) : after.IsDead index := by
  rcases becomes with _ | ⟨_, _, nulls⟩
  exact isDead_of_null nulls.value?_self

/-- What is left of a tree is shown, which is a null if nothing is. -/
theorem Becomes.shows (becomes : before.Becomes index made after) :
    after.Shows index (made.getD .null) := by
  cases becomes with
  | made within shows => exact shows
  | failed linked within nulls => exact nulls.value?_self

/-! ## New slots -/

theorem Within.grow (bound : index < before.size)
    (evolves : ∀ old, before.value? index = some old → old.Evolves value) (nullable : Bool)
    (count : Nat) :
    before.Within index ((before.alloc index nullable count).write index value) where
  toEvolves := (Evolves.alloc before index nullable count).trans
    (.write fun old isOld => evolves old (value?_alloc bound ▸ isOld))
  same other inRange apart := by
    have different : index ≠ other := fun same => apart (same ▸ .refl _ _)
    exact (value?_write_of_ne different).trans (value?_alloc inRange)

/-- Open slots show items that wait. -/
theorem showsItems_replicate {indices : List Nat}
    (each : ∀ index ∈ indices, arena.nullable? index = some nullable ∧
      arena.value? index = some .unset) :
    arena.ShowsItems nullable indices (List.replicate indices.length .waiting) := by
  rw [showsItems_iff]
  induction indices with
  | nil => exact .nil
  | cons index rest ih =>
      refine .cons (each index List.mem_cons_self) (ih ?_)
      exact fun other member => each other (List.mem_cons_of_mem _ member)

/-- A slot that becomes a list shows items that wait. -/
theorem shows_openItems (bound : index < arena.size) (nullable : Bool) (count : Nat) :
    ((arena.alloc index nullable count).write index (.list (arena.next count))).Shows index
      (.list nullable (List.replicate count .waiting)) := by
  have bounded : index < (arena.alloc index nullable count).size := by
    rw [size_alloc]
    omega
  have length : (arena.next count).length = count := List.length_range'
  refine ⟨arena.next count, value?_write_self bounded, ?_⟩
  have waiting : ((arena.alloc index nullable count).write index
      (.list (arena.next count))).ShowsItems nullable (arena.next count)
        (List.replicate (arena.next count).length .waiting) := by
    refine showsItems_replicate fun other member => ?_
    have different : index ≠ other := by
      have := (mem_next.mp member).1
      omega
    exact ⟨nullable?_write.trans (nullable?_alloc_next member),
      (value?_write_of_ne different).trans (value?_alloc_next member)⟩
  rwa [length] at waiting

theorem keys_eq_of_showsFields {entries : List (String × Nat)}
    {fields : List (String × Bool × ResponseTree)}
    (each : List.Forall₂ arena.ShowsField entries fields) :
    OrderedMap.keys entries = OrderedMap.keys fields := by
  induction each with
  | nil => rfl
  | cons head tail ih => rw [OrderedMap.keys_cons, OrderedMap.keys_cons, head.1, ih]

/-- An object that gets another slot shows another field, which waits. -/
theorem shows_openField (linked : arena.IsLinked) {entries : List (String × Nat)}
    {fields : List (String × Bool × ResponseTree)}
    (holds : arena.value? index = some (.object entries))
    (shows : arena.Shows index (.object fields)) (key : String) (nullable : Bool) :
    ((arena.alloc index nullable 1).write index
      (.object (entries ++ [(key, arena.size)]))).Shows index
        (.object (fields ++ [(key, nullable, .waiting)])) := by
  have bound := lt_size_of_value? holds
  have bounded : index < (arena.alloc index nullable 1).size := by
    rw [size_alloc]
    omega
  have isNew : arena.size ∈ arena.next 1 := mem_next.mpr ⟨Nat.le_refl _, Nat.lt_succ_self _⟩
  rcases shows with ⟨_, same, each⟩
  cases holds.symm.trans same
  have within : arena.Within index
      ((arena.alloc index nullable 1).write index (.object (entries ++ [(key, arena.size)]))) := by
    refine .grow bound (fun old isOld => ?_) nullable 1
    exact Option.some.inj (holds.symm.trans isOld) ▸ .extended entries _
  refine ⟨_, value?_write_self bounded, showsFields_iff.mpr (List.rel_append ?_ ?_)⟩
  · refine forall₂_imp_of_mem (showsFields_iff.mp each) fun entry member field shown => ?_
    have isParent := linked.below index _ holds entry.2 (List.mem_map_of_mem member)
    refine ⟨shown.1, ?_, ?_⟩
    · exact (within.nullable entry.2 (lt_size_of_nullable? shown.2.1)).trans shown.2.1
    · refine shown.2.2.frame linked within.toEvolves fun below under => ?_
      have inRange : below < arena.size := by
        rcases under.cases with rfl | ⟨outer, isOuter, -⟩
        · exact lt_size_of_parent? isParent
        · exact lt_size_of_parent? isOuter
      have different : index ≠ below := by
        have less := (linked.above _ _ isParent).1
        have later := under.le linked
        omega
      exact (value?_write_of_ne different).trans (value?_alloc inRange)
  · refine .cons ⟨rfl, ?_, ?_⟩ .nil
    · exact nullable?_write.trans (nullable?_alloc_next isNew)
    · have different : index ≠ arena.size := Nat.ne_of_lt bound
      exact (value?_write_of_ne different).trans (value?_alloc_next isNew)

end Arena
end GraphQL

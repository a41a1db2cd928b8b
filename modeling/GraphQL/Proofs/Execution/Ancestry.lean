import GraphQL.Proofs.Execution.Laziness
import GraphQL.Proofs.OrderedMap
import Mathlib.Data.List.Induction
import Mathlib.Data.List.Perm.Subperm

/-!
# Look-ups along the ancestors of a kind

The links of a table lead from a kind to the one it extends, and so on. A look-up answers with the
first accessor on this chain and the upcasts up to it, or with nothing if there is no accessor on it:
then the chain ends, or it comes back to a kind where it was before. A search that takes one step
more than there are links is long enough, because the kinds before the first accessor are different
and each has a link.

Answers are remembered, but every change of the table forgets them. So what a look-up answers depends
on what was declared before it, and on nothing that was asked.
-/

namespace GraphQL

namespace AccessorTable

variable {Upcast Accessor : Type} {accessor? : String → Option Accessor}
  {link? : String → Option (ParentLink Upcast)} {kind : String}

/-- The kind that so many links lead to. -/
def ancestor? (link? : String → Option (ParentLink Upcast)) (kind : String) : Nat → Option String
  | 0 => some kind
  | steps + 1 => (ancestor? link? kind steps).bind fun reached => (link? reached).map (·.parent)

/-- The upcasts along so many links. -/
def upcastsTo (link? : String → Option (ParentLink Upcast)) (kind : String) : Nat → List Upcast
  | 0 => []
  | steps + 1 =>
      upcastsTo link? kind steps ++
        (((ancestor? link? kind steps).bind link?).map (·.upcast)).toList

/-- The path leads to the accessor of the kind after so many links, and no kind before has one. -/
structure IsNearestAt (accessor? : String → Option Accessor)
    (link? : String → Option (ParentLink Upcast)) (kind : String)
    (path : AccessorPath Upcast Accessor) (steps : Nat) : Prop where
  reached : ancestor? link? kind steps = some path.kind
  registered : accessor? path.kind = some path.accessor
  upcasts : path.upcasts = upcastsTo link? kind steps
  isFirst : ∀ earlier < steps, ∀ passed, ancestor? link? kind earlier = some passed →
    accessor? passed = none

/-- The path leads to the first accessor on the chain of ancestors. -/
def IsNearest (accessor? : String → Option Accessor) (link? : String → Option (ParentLink Upcast))
    (kind : String) (path : AccessorPath Upcast Accessor) : Prop :=
  ∃ steps, IsNearestAt accessor? link? kind path steps

/-- None of the ancestors has an accessor. -/
def HasNoAccessor (accessor? : String → Option Accessor)
    (link? : String → Option (ParentLink Upcast)) (kind : String) : Prop :=
  ∀ steps reached, ancestor? link? kind steps = some reached → accessor? reached = none

/-- The chain of ancestors ends. -/
def Ends (link? : String → Option (ParentLink Upcast)) (kind : String) : Prop :=
  ∃ steps, ancestor? link? kind steps = none

/-- The chain of ancestors comes back to a kind. -/
def RunsIntoCycle (link? : String → Option (ParentLink Upcast)) (kind : String) : Prop :=
  ∃ earlier later reached, earlier < later ∧ ancestor? link? kind earlier = some reached ∧
    ancestor? link? kind later = some reached

/-! ## Chains -/

theorem ancestor?_succ (link? : String → Option (ParentLink Upcast)) (kind : String) (steps : Nat) :
    ancestor? link? kind (steps + 1) =
      (link? kind).bind fun link => ancestor? link? link.parent steps := by
  induction steps with
  | zero => cases found : link? kind <;> simp [ancestor?, found]
  | succ steps ih =>
      rw [ancestor?, ih]
      cases link? kind <;> rfl

theorem upcastsTo_succ {link : ParentLink Upcast} (linked : link? kind = some link) (steps : Nat) :
    upcastsTo link? kind (steps + 1) = link.upcast :: upcastsTo link? link.parent steps := by
  induction steps with
  | zero => simp [upcastsTo, ancestor?, linked]
  | succ steps ih => rw [upcastsTo, ih, ancestor?_succ, linked]; rfl

theorem ancestor?_add {earlier : Nat} {reached : String}
    (reaches : ancestor? link? kind earlier = some reached) (steps : Nat) :
    ancestor? link? kind (earlier + steps) = ancestor? link? reached steps := by
  induction steps with
  | zero => exact reaches
  | succ steps ih => rw [← Nat.add_assoc, ancestor?, ancestor?, ih]

theorem ancestor?_eq_none {earlier later : Nat} (ends : ancestor? link? kind earlier = none)
    (after : earlier ≤ later) : ancestor? link? kind later = none := by
  induction after with
  | refl => exact ends
  | step _ ih => rw [ancestor?, ih, Option.bind_none]

namespace IsNearestAt

variable {path : AccessorPath Upcast Accessor} {steps : Nat}

theorem zero {accessor : Accessor} (registered : accessor? kind = some accessor) :
    IsNearestAt accessor? link? kind { upcasts := [], kind, accessor } 0 where
  reached := rfl
  registered := registered
  upcasts := rfl
  isFirst := fun _ none => absurd none (Nat.not_lt_zero _)

theorem succ {link : ParentLink Upcast} (missing : accessor? kind = none)
    (linked : link? kind = some link)
    (nearest : IsNearestAt accessor? link? link.parent path steps) :
    IsNearestAt accessor? link? kind { path with upcasts := link.upcast :: path.upcasts }
      (steps + 1) where
  reached := by rw [ancestor?_succ, linked]; exact nearest.reached
  registered := nearest.registered
  upcasts := by rw [upcastsTo_succ linked, ← nearest.upcasts]
  isFirst := by
    intro earlier before passed reaches
    cases earlier with
    | zero => cases reaches; exact missing
    | succ earlier =>
        rw [ancestor?_succ, linked] at reaches
        exact nearest.isFirst earlier (Nat.lt_of_succ_lt_succ before) passed reaches

theorem eq_of_zero (nearest : IsNearestAt accessor? link? kind path 0) :
    accessor? kind = some path.accessor ∧ path = { upcasts := [], kind, accessor := path.accessor } := by
  rcases path with ⟨upcasts, reached, accessor⟩
  have same : kind = reached := Option.some.inj nearest.reached
  have noUpcasts : upcasts = [] := nearest.upcasts
  subst same noUpcasts
  exact ⟨nearest.registered, rfl⟩

/-- The way to a farther accessor goes along the link of the kind. -/
theorem exists_of_succ (nearest : IsNearestAt accessor? link? kind path (steps + 1)) :
    ∃ link rest, link? kind = some link ∧ IsNearestAt accessor? link? link.parent rest steps ∧
      path = { rest with upcasts := link.upcast :: rest.upcasts } := by
  have reached := nearest.reached
  rw [ancestor?_succ] at reached
  rcases Option.bind_eq_some_iff.mp reached with ⟨link, linked, reached⟩
  refine ⟨link, { path with upcasts := upcastsTo link? link.parent steps }, linked,
    ⟨reached, nearest.registered, rfl, ?_⟩, ?_⟩
  · intro earlier before passed reaches
    refine nearest.isFirst (earlier + 1) (Nat.succ_lt_succ before) passed ?_
    rw [ancestor?_succ, linked]
    exact reaches
  · rw [← upcastsTo_succ linked, ← nearest.upcasts]

/-- From the same kind the chain goes on in the same way, so no kind before the accessor is met
twice. -/
theorem injective (nearest : IsNearestAt accessor? link? kind path steps) {earlier later : Nat}
    (before : earlier < later) (within : later < steps) :
    ancestor? link? kind earlier ≠ ancestor? link? kind later := by
  intro same
  have whole := nearest.reached
  cases reaches : ancestor? link? kind later with
  | none =>
      rw [ancestor?_eq_none reaches (Nat.le_of_lt within)] at whole
      cases whole
  | some reached =>
      rw [reaches] at same
      have sooner := ancestor?_add same (steps - later)
      have onTime := ancestor?_add reaches (steps - later)
      rw [Nat.add_sub_cancel' (Nat.le_of_lt within), whole] at onTime
      rw [← onTime] at sooner
      have unregistered := nearest.isFirst _ (by omega) _ sooner
      rw [nearest.registered] at unregistered
      cases unregistered

end IsNearestAt

theorem exists_isNearest {steps : Nat} {reached : String} {accessor : Accessor}
    (reaches : ancestor? link? kind steps = some reached)
    (registered : accessor? reached = some accessor) : ∃ path, IsNearest accessor? link? kind path := by
  induction steps generalizing kind with
  | zero =>
      cases reaches
      exact ⟨_, 0, .zero registered⟩
  | succ steps ih =>
      cases found : accessor? kind with
      | some accessor => exact ⟨_, 0, .zero found⟩
      | none =>
          rw [ancestor?_succ] at reaches
          rcases Option.bind_eq_some_iff.mp reaches with ⟨link, linked, reaches⟩
          rcases ih reaches with ⟨path, steps, nearest⟩
          exact ⟨_, _, nearest.succ found linked⟩

theorem hasNoAccessor_iff :
    HasNoAccessor accessor? link? kind ↔ ∀ path, ¬ IsNearest accessor? link? kind path := by
  constructor
  · rintro missing path ⟨steps, nearest⟩
    have unregistered := missing steps path.kind nearest.reached
    rw [nearest.registered] at unregistered
    cases unregistered
  · intro never steps reached reaches
    cases registered : accessor? reached with
    | none => rfl
    | some accessor =>
        rcases exists_isNearest reaches registered with ⟨path, nearest⟩
        exact absurd nearest (never path)

/-! ## Chains in a table -/

section Table

variable {table : AccessorTable Upcast Accessor}

/-- There are no more different kinds with a link than there are links. -/
theorem steps_le_of_distinct {parents : OrderedMap (ParentLink Upcast)} {steps : Nat}
    (goesOn : ancestor? parents.find? kind steps ≠ none)
    (distinct : ∀ earlier later, earlier < later → later < steps →
      ancestor? parents.find? kind earlier ≠ ancestor? parents.find? kind later) :
    steps ≤ parents.length := by
  have nodup : ((List.range steps).map (ancestor? parents.find? kind)).Nodup := by
    rw [List.nodup_map_iff_inj_on List.nodup_range]
    intro left isLeft right isRight same
    rcases Nat.lt_trichotomy left right with before | rfl | after
    · exact absurd same (distinct left right before (List.mem_range.mp isRight))
    · rfl
    · exact absurd same.symm (distinct right left after (List.mem_range.mp isLeft))
  have linked : (List.range steps).map (ancestor? parents.find? kind) ⊆ parents.keys.map some := by
    intro passed member
    rcases List.mem_map.mp member with ⟨earlier, isEarlier, rfl⟩
    have next : ancestor? parents.find? kind (earlier + 1) ≠ none := fun ends =>
      goesOn (ancestor?_eq_none ends (List.mem_range.mp isEarlier))
    rcases Option.ne_none_iff_exists'.mp next with ⟨parent, next⟩
    rcases Option.bind_eq_some_iff.mp next with ⟨reached, reaches, onward⟩
    rcases Option.map_eq_some_iff.mp onward with ⟨link, isLink, -⟩
    rw [reaches]
    exact List.mem_map_of_mem (List.mem_map_of_mem (OrderedMap.mem_of_find? isLink))
  have fits := (nodup.subperm linked).length_le
  simpa [OrderedMap.keys] using fits

theorem IsNearestAt.steps_le {path : AccessorPath Upcast Accessor} {steps : Nat}
    (nearest : IsNearestAt accessor? table.parents.find? kind path steps) :
    steps ≤ table.parents.length :=
  steps_le_of_distinct (by rw [nearest.reached]; exact Option.some_ne_none _)
    fun _ _ => nearest.injective

/-- There are only so many links, so a chain that does not end comes back to a kind. -/
theorem ends_or_runsIntoCycle (parents : OrderedMap (ParentLink Upcast)) (kind : String) :
    Ends parents.find? kind ∨ RunsIntoCycle parents.find? kind := by
  by_contra neither
  rcases not_or.mp neither with ⟨endless, noCycle⟩
  have reaches (steps : Nat) : ancestor? parents.find? kind steps ≠ none :=
    fun ends => endless ⟨steps, ends⟩
  have fits := steps_le_of_distinct (reaches (parents.length + 1)) fun earlier later before _ same => by
    rcases Option.ne_none_iff_exists'.mp (reaches later) with ⟨reached, isLater⟩
    exact noCycle ⟨earlier, later, reached, before, same.trans isLater, isLater⟩
  exact absurd fits (Nat.not_succ_le_self _)

theorem exists_isNearestAt_of_search {fuel : Nat} {upcasts : List Upcast}
    {path : AccessorPath Upcast Accessor} (found : table.search fuel upcasts kind = some path) :
    ∃ steps rest, IsNearestAt table.accessors.find? table.parents.find? kind rest steps ∧
      path = { rest with upcasts := upcasts ++ rest.upcasts } := by
  induction fuel generalizing upcasts kind with
  | zero => cases found
  | succ fuel ih =>
      rw [search] at found
      cases registered : table.accessors.find? kind with
      | some accessor =>
          rw [registered] at found
          cases found
          exact ⟨0, _, .zero registered, by simp⟩
      | none =>
          rw [registered] at found
          cases linked : table.parents.find? kind with
          | none =>
              rw [linked] at found
              cases found
          | some link =>
              rw [linked] at found
              rcases ih found with ⟨steps, rest, nearest, rfl⟩
              exact ⟨steps + 1, _, nearest.succ registered linked, by simp⟩

theorem search_eq_of_isNearestAt {steps fuel : Nat} {upcasts : List Upcast}
    {path : AccessorPath Upcast Accessor}
    (nearest : IsNearestAt table.accessors.find? table.parents.find? kind path steps)
    (within : steps < fuel) :
    table.search fuel upcasts kind = some { path with upcasts := upcasts ++ path.upcasts } := by
  induction steps generalizing kind path fuel upcasts with
  | zero =>
      rcases Nat.exists_eq_add_one_of_ne_zero (Nat.ne_of_gt within) with ⟨fuel, rfl⟩
      rcases nearest.eq_of_zero with ⟨registered, same⟩
      rw [search, registered, same, List.append_nil]
  | succ steps ih =>
      rcases Nat.exists_eq_add_one_of_ne_zero (Nat.ne_of_gt (Nat.zero_lt_of_lt within))
        with ⟨fuel, rfl⟩
      rcases nearest.exists_of_succ with ⟨link, rest, linked, onward, rfl⟩
      rw [search, nearest.isFirst 0 (Nat.succ_pos steps) kind rfl, linked]
      exact (ih onward (Nat.lt_of_succ_lt_succ within)).trans (by simp)

/-- A search that takes one step more than there are links finds the nearest accessor. -/
theorem search_eq_some_iff_isNearest {path : AccessorPath Upcast Accessor} :
    table.search (table.parents.length + 1) [] kind = some path ↔
      IsNearest table.accessors.find? table.parents.find? kind path := by
  constructor
  · intro found
    rcases exists_isNearestAt_of_search found with ⟨steps, rest, nearest, rfl⟩
    exact ⟨steps, nearest⟩
  · rintro ⟨steps, nearest⟩
    exact search_eq_of_isNearestAt nearest (Nat.lt_succ_of_le nearest.steps_le)

theorem search_eq_none_iff :
    table.search (table.parents.length + 1) [] kind = none ↔
      HasNoAccessor table.accessors.find? table.parents.find? kind := by
  rw [hasNoAccessor_iff, Option.eq_none_iff_forall_ne_some]
  exact forall_congr' fun path => not_congr search_eq_some_iff_isNearest

end Table

end AccessorTable

/-! ## Declarations and look-ups in any order -/

/-- What can be done with the accessors of a host. -/
inductive AccessorUse (host : Host) where
  | register (kind : String) (accessor : host.Value → Option (Unwrapping host))
  | inherit (kind : String) (link : ParentLink (host.Value → Option host.Value))
  | isLazy (value : host.Value)
  | accessorKind (value : host.Value)
  | force (limit : Nat) (value : host.Value)

namespace Accessors

open AccessorTable

variable {host : Host}

/-- Forces a value, and remembers the answer to each look-up on the way. -/
def forceRemembering (code : HostCode host) (limit : Nat) :
    Nat → host.Value → Accessors host → Session host →
      Except ExecutionError host.Value × Accessors host × Session host
  | 0, value, accessors, session =>
      (if accessors.isLazy value then .error (.stillLazy limit) else .ok value,
        accessors.remember value, session)
  | steps + 1, value, accessors, session =>
      match accessors.unwrap code value session with
      | (none, session) => (.ok value, accessors.remember value, session)
      | (some (.ok next), session) =>
          forceRemembering code limit steps next (accessors.remember value) session
      | (some (.error error), session) =>
          (.error (.resolver error), accessors.remember value, session)

end Accessors

namespace AccessorUse

variable {host : Host}

/-- The table and the session after a use. -/
def apply (code : HostCode host) (use : AccessorUse host) :
    Accessors host × Session host → Accessors host × Session host
  | (accessors, session) =>
      match use with
      | .register kind accessor => (AccessorTable.register accessors kind accessor, session)
      | .inherit kind link => (AccessorTable.inherit accessors kind link, session)
      | .isLazy value | .accessorKind value => (accessors.remember value, session)
      | .force limit value => (Accessors.forceRemembering code limit limit value accessors session).2

/-- The table and the session after these uses, the first one first. -/
def run (code : HostCode host) (uses : List (AccessorUse host)) (session : Session host) :
    Accessors host × Session host :=
  uses.foldl (fun now use => use.apply code now) (host.initialAccessors, session)

/-- The accessors of all kinds after a use. -/
def nextAccessors (before : String → Option (host.Value → Option (Unwrapping host))) :
    AccessorUse host → String → Option (host.Value → Option (Unwrapping host))
  | .register kind accessor => fun other => if kind = other then some accessor else before other
  | _ => before

/-- The links of all kinds after a use. -/
def nextLinks (before : String → Option (ParentLink (host.Value → Option host.Value))) :
    AccessorUse host → String → Option (ParentLink (host.Value → Option host.Value))
  | .inherit kind link => fun other => if kind = other then some link else before other
  | _ => before

/-- What was registered last for each kind. Deferred values are known from the beginning. -/
def accessorAfter (uses : List (AccessorUse host)) :
    String → Option (host.Value → Option (Unwrapping host)) :=
  uses.foldl nextAccessors fun kind =>
    if Host.deferredKind = kind then some host.deferredAccessor else none

/-- What was declared last to be extended by each kind. -/
def linkAfter (uses : List (AccessorUse host)) :
    String → Option (ParentLink (host.Value → Option host.Value)) :=
  uses.foldl nextLinks fun _ => none

end AccessorUse

namespace Accessors

open AccessorTable

variable {host : Host}

/-- The table holds these declarations, and what it remembers is what it would find. -/
structure Holds (accessors : Accessors host)
    (accessor? : String → Option (host.Value → Option (Unwrapping host)))
    (link? : String → Option (ParentLink (host.Value → Option host.Value))) : Prop where
  faithful : accessors.IsFaithful
  registered : accessors.accessors.find? = accessor?
  linked : accessors.parents.find? = link?

/-- Look-ups of all kinds follow the chain of ancestors that these declarations make. -/
structure FollowsChains (accessors : Accessors host)
    (accessor? : String → Option (host.Value → Option (Unwrapping host)))
    (link? : String → Option (ParentLink (host.Value → Option host.Value))) : Prop where
  answer_iff : ∀ kind path, AccessorTable.answer? accessors kind = some path ↔
    IsNearest accessor? link? kind path
  noAnswer_iff : ∀ kind, AccessorTable.answer? accessors kind = none ↔
    HasNoAccessor accessor? link? kind ∧ (Ends link? kind ∨ RunsIntoCycle link? kind)
  isLazy_iff : ∀ value, accessors.isLazy value = true ↔
    (∃ cell, value = .pending cell) ∨
      ∃ kind path, host.kindOf? value = some kind ∧ IsNearest accessor? link? kind path
  accessorKind_iff : ∀ value name, accessors.accessorKind? value = some name ↔
    ∃ kind path, host.kindOf? value = some kind ∧ IsNearest accessor? link? kind path ∧
      path.kind = name
  unwrapping_iff : ∀ value unwrapping, accessors.unwrapping? value = some unwrapping ↔
    ∃ kind path object, host.kindOf? value = some kind ∧ IsNearest accessor? link? kind path ∧
      path.upcasts.foldlM (fun object upcast => upcast object) value = some object ∧
      path.accessor object = some unwrapping
  /-- What is remembered on the way changes neither the result nor the session. -/
  force_eq : ∀ code limit value session,
    let remembered := accessors.forceRemembering code limit limit value session
    (remembered.1, remembered.2.2) = accessors.force code limit value session

namespace Holds

variable {accessors : Accessors host}
  {accessor? : String → Option (host.Value → Option (Unwrapping host))}
  {link? : String → Option (ParentLink (host.Value → Option host.Value))}

theorem initial : host.initialAccessors.Holds (AccessorUse.accessorAfter []) (AccessorUse.linkAfter [])
    where
  faithful := by
    intro kind answer found
    cases found
  registered := rfl
  linked := rfl

theorem register (holds : accessors.Holds accessor? link?) (kind : String)
    (accessor : host.Value → Option (Unwrapping host)) :
    Holds (AccessorTable.register accessors kind accessor)
      (fun other => if kind = other then some accessor else accessor? other) link? where
  faithful := by
    intro other answer found
    cases found
  registered := by
    funext other
    rw [← holds.registered]
    exact OrderedMap.find?_insert _ kind other _
  linked := holds.linked

theorem inherit (holds : accessors.Holds accessor? link?) (kind : String)
    (link : ParentLink (host.Value → Option host.Value)) :
    Holds (AccessorTable.inherit accessors kind link) accessor?
      (fun other => if kind = other then some link else link? other) where
  faithful := by
    intro other answer found
    cases found
  registered := holds.registered
  linked := by
    funext other
    rw [← holds.linked]
    exact OrderedMap.find?_insert _ kind other _

theorem remember (holds : accessors.Holds accessor? link?) (value : host.Value) :
    (accessors.remember value).Holds accessor? link? where
  faithful := holds.faithful.remember value
  registered := by rw [remember_accessors, holds.registered]
  linked := by rw [remember_parents, holds.linked]

theorem answer_iff (holds : accessors.Holds accessor? link?) (kind : String)
    (path : AccessorPath (host.Value → Option host.Value) (host.Value → Option (Unwrapping host))) :
    AccessorTable.answer? accessors kind = some path ↔ IsNearest accessor? link? kind path := by
  rw [holds.faithful.answer?_eq, search_eq_some_iff_isNearest, holds.registered, holds.linked]

theorem noAnswer_iff (holds : accessors.Holds accessor? link?) (kind : String) :
    AccessorTable.answer? accessors kind = none ↔
      HasNoAccessor accessor? link? kind ∧ (Ends link? kind ∨ RunsIntoCycle link? kind) := by
  have endsOrCycles := ends_or_runsIntoCycle accessors.parents kind
  rw [holds.linked] at endsOrCycles
  rw [holds.faithful.answer?_eq, search_eq_none_iff, holds.registered, holds.linked]
  exact (and_iff_left endsOrCycles).symm

theorem accessor_iff (holds : accessors.Holds accessor? link?) (value : host.Value)
    (path : AccessorPath (host.Value → Option host.Value) (host.Value → Option (Unwrapping host))) :
    accessors.accessor? value = some path ↔
      ∃ kind, host.kindOf? value = some kind ∧ IsNearest accessor? link? kind path := by
  rw [Accessors.accessor?, Option.bind_eq_some_iff]
  exact exists_congr fun kind => and_congr_right fun _ => holds.answer_iff kind path

theorem isLazy_iff (holds : accessors.Holds accessor? link?) (value : host.Value) :
    accessors.isLazy value = true ↔
      (∃ cell, value = .pending cell) ∨
        ∃ kind path, host.kindOf? value = some kind ∧ IsNearest accessor? link? kind path := by
  have isSome : (accessors.accessor? value).isSome = true ↔
      ∃ kind path, host.kindOf? value = some kind ∧ IsNearest accessor? link? kind path := by
    rw [Option.isSome_iff_exists, exists_comm]
    exact exists_congr fun path => holds.accessor_iff value path
  cases value with
  | pending cell => exact iff_of_true rfl (.inl ⟨cell, rfl⟩)
  | _ => simpa [isLazy] using isSome

theorem accessorKind_iff (holds : accessors.Holds accessor? link?) (value : host.Value)
    (name : String) :
    accessors.accessorKind? value = some name ↔
      ∃ kind path, host.kindOf? value = some kind ∧ IsNearest accessor? link? kind path ∧
        path.kind = name := by
  rw [accessorKind?, Option.map_eq_some_iff, exists_comm]
  refine exists_congr fun path => ?_
  rw [holds.accessor_iff, ← exists_and_right]
  exact exists_congr fun kind => and_assoc

theorem unwrapping_iff (holds : accessors.Holds accessor? link?) (value : host.Value)
    (unwrapping : Unwrapping host) :
    accessors.unwrapping? value = some unwrapping ↔
      ∃ kind path object, host.kindOf? value = some kind ∧ IsNearest accessor? link? kind path ∧
        path.upcasts.foldlM (fun object upcast => upcast object) value = some object ∧
        path.accessor object = some unwrapping := by
  simp only [unwrapping?, bind, Option.bind_eq_some_iff, holds.accessor_iff]
  constructor
  · rintro ⟨path, ⟨kind, isKind, nearest⟩, object, leads, gives⟩
    exact ⟨kind, path, object, isKind, nearest, leads, gives⟩
  · rintro ⟨kind, path, object, isKind, nearest, leads, gives⟩
    exact ⟨path, ⟨kind, isKind, nearest⟩, object, leads, gives⟩

/-! ### Forcing -/

variable {other : Accessors host}

theorem accessor?_congr (holds : accessors.Holds accessor? link?)
    (holdsToo : other.Holds accessor? link?) (value : host.Value) :
    accessors.accessor? value = other.accessor? value :=
  Option.ext fun path => (holds.accessor_iff value path).trans (holdsToo.accessor_iff value path).symm

theorem isLazy_congr (holds : accessors.Holds accessor? link?)
    (holdsToo : other.Holds accessor? link?) (value : host.Value) :
    accessors.isLazy value = other.isLazy value :=
  Bool.eq_iff_iff.mpr ((holds.isLazy_iff value).trans (holdsToo.isLazy_iff value).symm)

theorem unwrap_congr (holds : accessors.Holds accessor? link?)
    (holdsToo : other.Holds accessor? link?) (code : HostCode host) (value : host.Value) :
    accessors.unwrap code value = other.unwrap code value := by
  have same : accessors.unwrapping? value = other.unwrapping? value := by
    rw [unwrapping?, unwrapping?, holds.accessor?_congr holdsToo]
  cases value with
  | pending cell => rfl
  | _ => simp only [unwrap, same]

theorem forceRemembering_eq (holds : accessors.Holds accessor? link?)
    (holdsToo : other.Holds accessor? link?) (code : HostCode host) (limit steps : Nat)
    (value : host.Value) (session : Session host) :
    let remembered := other.forceRemembering code limit steps value session
    (remembered.1, remembered.2.2) = accessors.forceWithin code limit steps value session := by
  induction steps generalizing other value session with
  | zero =>
      rw [Accessors.forceRemembering, forceWithin, holds.isLazy_congr holdsToo]
      rfl
  | succ steps ih =>
      rw [Accessors.forceRemembering, forceWithin, holds.unwrap_congr holdsToo]
      simp only [bind, StateT.bind]
      rcases other.unwrap code value session with ⟨_ | error | next, later⟩
      · rfl
      · rfl
      · exact ih (holdsToo.remember value) next later

theorem forceRemembering (holds : accessors.Holds accessor? link?) (code : HostCode host)
    (limit steps : Nat) (value : host.Value) (session : Session host) :
    (accessors.forceRemembering code limit steps value session).2.1.Holds accessor? link? := by
  induction steps generalizing accessors value session with
  | zero => exact holds.remember value
  | succ steps ih =>
      rw [Accessors.forceRemembering]
      rcases accessors.unwrap code value session with ⟨_ | error | next, later⟩
      · exact holds.remember value
      · exact holds.remember value
      · exact ih (holds.remember value) next later

theorem followsChains (holds : accessors.Holds accessor? link?) :
    accessors.FollowsChains accessor? link? where
  answer_iff := holds.answer_iff
  noAnswer_iff := holds.noAnswer_iff
  isLazy_iff := holds.isLazy_iff
  accessorKind_iff := holds.accessorKind_iff
  unwrapping_iff := holds.unwrapping_iff
  force_eq := fun code limit => holds.forceRemembering_eq holds code limit limit

/-- Doing one thing with a table. -/
theorem apply (holds : accessors.Holds accessor? link?) (code : HostCode host)
    (use : AccessorUse host) (session : Session host) :
    (use.apply code (accessors, session)).1.Holds (AccessorUse.nextAccessors accessor? use)
      (AccessorUse.nextLinks link? use) := by
  cases use with
  | register kind accessor => exact holds.register kind accessor
  | inherit kind link => exact holds.inherit kind link
  | isLazy value => exact holds.remember value
  | accessorKind value => exact holds.remember value
  | force limit value => exact holds.forceRemembering code limit limit value session

theorem run (code : HostCode host) (past : List (AccessorUse host)) (session : Session host) :
    (AccessorUse.run code past session).1.Holds (AccessorUse.accessorAfter past)
      (AccessorUse.linkAfter past) := by
  induction past using List.reverseRecOn with
  | nil => exact initial
  | append_singleton past use ih =>
      rw [AccessorUse.run, AccessorUse.accessorAfter, AccessorUse.linkAfter, List.foldl_concat,
        List.foldl_concat, List.foldl_concat]
      exact ih.apply code use _

end Holds

/-- Whatever was declared and looked up before, in any order, look-ups follow the chains of what is
declared. -/
theorem followsChains_of_run (code : HostCode host) (past : List (AccessorUse host))
    (session : Session host) :
    (AccessorUse.run code past session).1.FollowsChains (AccessorUse.accessorAfter past)
      (AccessorUse.linkAfter past) :=
  (Holds.run code past session).followsChains

end Accessors
end GraphQL

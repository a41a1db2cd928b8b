import GraphQL.Execution.Executor

/-!
# Values that are forced to the end

In a table of accessors everything fits its kind: an accessor can look into every value of the kind
for which it was registered, and an upcast gives a value of the kind that is extended. So a value
that is lazy can be unwrapped, and what forcing gives without an error is lazy no more.
-/

namespace GraphQL

namespace Accessors

variable {host : Host}

/-- What is remembered is what a search finds. -/
def IsFaithful (accessors : Accessors host) : Prop :=
  ∀ kind answer, accessors.answers.find? kind = some answer →
    answer = accessors.search (accessors.parents.length + 1) [] kind

/-- Accessors and upcasts fit the kinds for which they were registered. -/
structure IsTyped (accessors : Accessors host) : Prop where
  /-- What is remembered is what a search finds. -/
  answers : ∀ kind answer, accessors.answers.find? kind = some answer →
    answer = accessors.search (accessors.parents.length + 1) [] kind
  accessor : ∀ kind accessor, accessors.accessors.find? kind = some accessor →
    ∀ value, host.kindOf? value = some kind → (accessor value).isSome = true
  upcast : ∀ kind link, accessors.parents.find? kind = some link →
    ∀ value, host.kindOf? value = some kind →
      ∃ parent, link.upcast value = some parent ∧ host.kindOf? parent = some link.parent

/-- A search does not depend on what is remembered. -/
theorem search_answers (accessors : Accessors host)
    (answers : OrderedMap (Option (AccessorPath (host.Value → Option host.Value)
      (host.Value → Option (Unwrapping host))))) (steps : Nat)
    (upcasts : List (host.Value → Option host.Value)) (kind : String) :
    accessors.search steps upcasts kind =
      AccessorTable.search { accessors with answers } steps upcasts kind := by
  induction steps generalizing upcasts kind with
  | zero => rfl
  | succ steps ih =>
      rw [AccessorTable.search, AccessorTable.search]
      cases accessors.accessors.find? kind with
      | some accessor => rfl
      | none =>
          cases accessors.parents.find? kind with
          | none => rfl
          | some link => exact ih _ _

@[simp]
theorem remember_accessors (accessors : Accessors host) (value : host.Value) :
    (accessors.remember value).accessors = accessors.accessors := by
  unfold remember AccessorTable.lookup
  split
  · split <;> rfl
  · rfl

@[simp]
theorem remember_parents (accessors : Accessors host) (value : host.Value) :
    (accessors.remember value).parents = accessors.parents := by
  unfold remember AccessorTable.lookup
  split
  · split <;> rfl
  · rfl

namespace IsFaithful

variable {accessors : Accessors host}

theorem answer?_eq (faithful : accessors.IsFaithful) (kind : String) :
    AccessorTable.answer? accessors kind =
      accessors.search (accessors.parents.length + 1) [] kind := by
  unfold AccessorTable.answer? AccessorTable.lookup
  cases found : accessors.answers.find? kind with
  | none => rfl
  | some answer => exact faithful kind answer found

/-- Looking a value up and remembering the answer. -/
theorem remember (faithful : accessors.IsFaithful) (value : host.Value) :
    (accessors.remember value).IsFaithful := by
  unfold Accessors.remember
  cases host.kindOf? value with
  | none => exact faithful
  | some kind =>
      simp only [AccessorTable.lookup]
      cases known : accessors.answers.find? kind with
      | some answer => exact faithful
      | none =>
          intro other answer found
          by_cases same : kind = other
          · subst same
            rw [OrderedMap.find?_insert_self] at found
            exact (Option.some.inj found).symm.trans (search_answers _ _ _ _ _)
          · rw [OrderedMap.find?_insert_of_ne _ _ same] at found
            exact (faithful other answer found).trans (search_answers _ _ _ _ _)

end IsFaithful

namespace IsTyped

variable {accessors : Accessors host}

/-- Registering an accessor of a kind for that kind. -/
theorem register (typed : accessors.IsTyped) {kind : String}
    {accessor : host.Value → Option (Unwrapping host)}
    (fits : ∀ value, host.kindOf? value = some kind → (accessor value).isSome = true) :
    IsTyped (AccessorTable.register accessors kind accessor) where
  answers := by
    intro other answer found
    cases found
  accessor := by
    intro other registered found value isKind
    by_cases same : kind = other
    · subst same
      rw [AccessorTable.register, OrderedMap.find?_insert_self] at found
      cases found
      exact fits value isKind
    · rw [AccessorTable.register, OrderedMap.find?_insert_of_ne _ _ same] at found
      exact typed.accessor other registered found value isKind
  upcast := typed.upcast

/-- Linking a kind to another one by an upcast between them. -/
theorem inherit (typed : accessors.IsTyped) {kind : String}
    {link : ParentLink (host.Value → Option host.Value)}
    (fits : ∀ value, host.kindOf? value = some kind →
      ∃ parent, link.upcast value = some parent ∧ host.kindOf? parent = some link.parent) :
    IsTyped (AccessorTable.inherit accessors kind link) where
  answers := by
    intro other answer found
    cases found
  accessor := typed.accessor
  upcast := by
    intro other linked found value isKind
    by_cases same : kind = other
    · subst same
      rw [AccessorTable.inherit, OrderedMap.find?_insert_self] at found
      cases found
      exact fits value isKind
    · rw [AccessorTable.inherit, OrderedMap.find?_insert_of_ne _ _ same] at found
      exact typed.upcast other linked found value isKind

/-- The initial table fits if no object of the host has the kind of deferred values. -/
theorem initial (distinct : ∀ object, host.kind object ≠ Host.deferredKind) :
    host.initialAccessors.IsTyped := by
  refine register ⟨?_, ?_, ?_⟩ ?_
  · intro kind answer found
    cases found
  · intro kind accessor found
    cases found
  · intro kind link found
    cases found
  · intro value isKind
    cases value with
    | deferred cell => rfl
    | object object => exact absurd (Option.some.inj isKind) (distinct object)
    | _ => cases isKind

theorem answer?_eq (typed : accessors.IsTyped) (kind : String) :
    AccessorTable.answer? accessors kind =
      accessors.search (accessors.parents.length + 1) [] kind :=
  IsFaithful.answer?_eq typed.answers kind

theorem remember (typed : accessors.IsTyped) (value : host.Value) :
    (accessors.remember value).IsTyped where
  answers := IsFaithful.remember typed.answers value
  accessor := by
    rw [remember_accessors]
    exact typed.accessor
  upcast := by
    rw [remember_parents]
    exact typed.upcast

/-- The upcasts that a search finds lead to a value for the accessor. -/
theorem exists_upcast_of_search (typed : accessors.IsTyped) {value object : host.Value}
    {kind : String} (isKind : host.kindOf? object = some kind) {steps : Nat}
    {upcasts : List (host.Value → Option host.Value)}
    (leads : upcasts.foldlM (fun object upcast => upcast object) value = some object)
    {path : AccessorPath (host.Value → Option host.Value) (host.Value → Option (Unwrapping host))}
    (found : accessors.search steps upcasts kind = some path) :
    ∃ last, path.upcasts.foldlM (fun object upcast => upcast object) value = some last ∧
      (path.accessor last).isSome = true := by
  induction steps generalizing object kind upcasts with
  | zero => cases found
  | succ steps ih =>
      rw [AccessorTable.search] at found
      cases registered : accessors.accessors.find? kind with
      | some accessor =>
          rw [registered] at found
          cases found
          exact ⟨object, leads, typed.accessor kind accessor registered object isKind⟩
      | none =>
          rw [registered] at found
          cases linked : accessors.parents.find? kind with
          | none =>
              rw [linked] at found
              cases found
          | some link =>
              rw [linked] at found
              rcases typed.upcast kind link linked object isKind with ⟨parent, isParent, parentKind⟩
              refine ih parentKind ?_ found
              rw [List.foldlM_append, leads]
              simp [isParent]

/-- An object that is lazy can be unwrapped. -/
theorem unwrapping?_isSome (typed : accessors.IsTyped) {value : host.Value}
    (isLazy : (accessors.accessor? value).isSome = true) :
    (accessors.unwrapping? value).isSome = true := by
  rcases Option.isSome_iff_exists.mp isLazy with ⟨path, isPath⟩
  rcases Option.bind_eq_some_iff.mp isPath with ⟨kind, isKind, found⟩
  rw [typed.answer?_eq] at found
  rcases typed.exists_upcast_of_search isKind rfl found with ⟨last, leads, gives⟩
  simp [unwrapping?, isPath, leads, gives]

theorem isLazy_eq_false_of_unwrap (typed : accessors.IsTyped) {code : HostCode host}
    {value : host.Value} {session : Session host}
    (ends : (accessors.unwrap code value session).1 = none) : accessors.isLazy value = false := by
  have ended : accessors.unwrapping? value = none → (accessors.accessor? value).isSome = false := by
    intro none
    rw [Bool.eq_false_iff]
    intro isLazy
    have isSome := typed.unwrapping?_isSome isLazy
    rw [none] at isSome
    cases isSome
  cases value with
  | pending cell => cases ends
  | _ =>
      apply ended
      rw [unwrap] at ends
      · cases unwraps : accessors.unwrapping? _ with
        | none => rfl
        | some unwrapping =>
            rw [unwraps] at ends
            cases unwrapping <;> cases ends
      · intro cell same
        cases same

/-- What forcing gives is not lazy. -/
theorem isLazy_of_forceWithin (typed : accessors.IsTyped) {code : HostCode host} {limit steps : Nat}
    {value next : host.Value} {session : Session host}
    (forced : (accessors.forceWithin code limit steps value session).1 = .ok next) :
    accessors.isLazy next = false := by
  induction steps generalizing value session with
  | zero =>
      cases isLazy : accessors.isLazy value with
      | true =>
          simp only [forceWithin, isLazy, if_true] at forced
          cases forced
      | false =>
          simp only [forceWithin, isLazy, Bool.false_eq_true, if_false] at forced
          cases forced
          exact isLazy
  | succ steps ih =>
      rcases unwrapped : accessors.unwrap code value session with ⟨result, later⟩
      simp only [forceWithin, bind, StateT.bind, unwrapped] at forced
      cases result with
      | none =>
          cases forced
          exact typed.isLazy_eq_false_of_unwrap (congrArg Prod.fst unwrapped)
      | some result =>
          cases result with
          | error error => cases forced
          | ok following => exact ih forced

end IsTyped

end Accessors

/-- What forcing gives without an error is not lazy. -/
def Environment.Settles {σ Object : Type} (env : Environment σ Object) : Prop :=
  ∀ value state next, (env.force value state).1 = .ok next → env.isLazy next = false

theorem Executor.settles_environment {host : Host} {executor : Executor host}
    (typed : executor.accessors.IsTyped) (bindings : Variables) (context : Context) :
    (executor.environment bindings context).Settles :=
  fun _ _ _ => typed.isLazy_of_forceWithin

end GraphQL

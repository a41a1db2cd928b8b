import GraphQL.Execution.Executor
import GraphQL.Proofs.Execution.Simulation

/-!
# Hosts without observable effects

Pure code is a handful of functions: what it says about a field depends on the value of the object,
the coerced arguments and the position of the field only, and a lazy value has one content, whoever
asks for it and whenever. A host is pure if its code answers as such functions do. It may keep
results, number its cells and count, as long as a value that it has handed out stands for the same
all the time.
-/

namespace GraphQL

/-- Code without effects, whose values are of some type. -/
structure PureCode (Value : Type) where
  isNull : Value → Bool
  json? : Value → Option Json
  items? : Value → Option (List Value)
  /-- The value of a text. -/
  ofText : String → Value
  /-- What a lazy value holds, which can be lazy again; nothing if it is not lazy. -/
  unwrap : Value → Option (Except ResolverError Value)
  /-- The value of a field, for the value of the object it belongs to and its arguments. -/
  resolve : FieldInfo → Value → ResolverArguments → Except ResolverError Value
  /-- The name of the object type of a value of an abstract type. -/
  typeOf : String → Value → Option String

namespace PureCode

variable {Value : Type} (code : PureCode Value) {host : Host}

/-- Unwraps a value while it is lazy, at most so many times; `limit` is named by the error. -/
def forceWithin (limit : Nat) : Nat → Value → Except ExecutionError Value
  | 0, value => if (code.unwrap value).isSome then .error (.stillLazy limit) else .ok value
  | steps + 1, value =>
      match code.unwrap value with
      | none => .ok value
      | some (.ok next) => forceWithin limit steps next
      | some (.error error) => .error (.resolver error)

/-- The value of a field with its arguments coerced; the name of the type needs no resolver. -/
def resolveField (executor : Executor host) (bindings : Variables) (node : PlanNode)
    (parent : Value) (path : ResponsePath) : Except ExecutionError Value :=
  if node.name = Schema.typenameField.name then .ok (code.ofText node.ownerType)
  else
    match executor.schema.field? node.ownerType node.name,
        executor.resolvers.field? node.ownerType node.name with
    | some field, some _ =>
        match coerceArguments executor.schema field node.arguments bindings with
        | .error error => .error (.resolver error)
        | .ok arguments =>
            (code.resolve
              { name := node.name
                parentType := node.ownerType
                returnType := node.returnType.text
                path
                selected := node.selectedKeys } parent arguments).mapError .resolver
    | _, _ => .error (.resolver (.fieldNotFound (Resolvers.key node.ownerType node.name)))

/-- What an evaluation asks of the code. -/
def environment (executor : Executor host) (bindings : Variables) : PureEnvironment Value where
  schema := executor.schema
  bindings := bindings
  isNull := code.isNull
  json? := code.json?
  items? := code.items?
  force := code.forceWithin executor.limits.maxLazyDepth executor.limits.maxLazyDepth
  resolve := code.resolveField executor bindings
  typeOf := code.typeOf

end PureCode

/-- A question gives what represents the answer that is expected, and leaves all other values what
they were. -/
def Answers {σ Object Value ε : Type} (represents : σ → ResolvedValue Object → Value → Prop)
    (state : σ) (question : StateM σ (Except ε (ResolvedValue Object)))
    (expected : Except ε Value) : Prop :=
  Keeps represents state (question state).2 ∧
    Answered (represents (question state).2) (question state).1 expected

/-- The host of an executor answers as pure code does, up to what represents its values. -/
structure Executor.IsPure {host : Host} {Value : Type} (executor : Executor host)
    (context : Context) (code : PureCode Value)
    (represents : Session host → host.Value → Value → Prop) : Prop where
  isNull : ∀ {session value plain}, represents session value plain →
    value.isNull = code.isNull plain
  json? : ∀ {session value plain}, represents session value plain → value.json? = code.json? plain
  items? : ∀ {session value plain}, represents session value plain →
    Option.Rel (List.Forall₂ (represents session)) value.items? (code.items? plain)
  ofText : ∀ session text, represents session (.json (.string text)) (code.ofText text)
  isLazy : ∀ {session value plain}, represents session value plain →
    executor.accessors.isLazy value = (code.unwrap plain).isSome
  eager : ∀ {session value plain}, represents session value plain → code.unwrap plain = none →
    executor.accessors.unwrap executor.code value session = (none, session)
  unwrap : ∀ {session value plain expected}, represents session value plain →
    code.unwrap plain = some expected →
    ∃ answer later, executor.accessors.unwrap executor.code value session = (some answer, later) ∧
      Keeps represents session later ∧ Answered (represents later) answer expected
  resolve : ∀ {session value plain}, represents session value plain →
    ∀ {info resolver}, executor.resolvers.field? info.parentType info.name = some resolver →
    ∀ arguments, Answers represents session
      (Session.perform (resolver { parent := value, arguments, context, info }))
      (code.resolve info plain arguments)
  typeOf : ∀ {session value plain}, represents session value plain → ∀ name,
    Keeps represents session
      (Session.perform (executor.resolvers.typeOf name value context) session).2 ∧
    (Session.perform (executor.resolvers.typeOf name value context) session).1 =
      code.typeOf name plain

namespace Executor.IsPure

variable {host : Host} {Value : Type} {executor : Executor host} {context : Context}
  {code : PureCode Value} {represents : Session host → host.Value → Value → Prop}

/-- Forcing gives what pure code gives. -/
theorem forceWithin (pure : executor.IsPure context code represents) (limit steps : Nat)
    {session : Session host} {value : host.Value} {plain : Value}
    (represented : represents session value plain) :
    Answers represents session (executor.accessors.forceWithin executor.code limit steps value)
      (code.forceWithin limit steps plain) := by
  induction steps generalizing session value plain with
  | zero =>
      refine ⟨.refl _, ?_⟩
      simp only [Accessors.forceWithin, PureCode.forceWithin, pure.isLazy represented]
      cases (code.unwrap plain).isSome with
      | true => exact rfl
      | false => exact represented
  | succ steps ih =>
      simp only [Answers, Accessors.forceWithin, PureCode.forceWithin, bind, StateT.bind]
      cases unwrapped : code.unwrap plain with
      | none =>
          rw [pure.eager represented unwrapped]
          exact ⟨.refl _, represented⟩
      | some expected =>
          rcases pure.unwrap represented unwrapped with ⟨answer, later, asked, keeps, answered⟩
          rw [asked]
          cases answer with
          | error error =>
              cases expected with
              | ok next => cases answered
              | error other =>
                  cases answered
                  exact ⟨keeps, rfl⟩
          | ok next =>
              cases expected with
              | error other => cases answered
              | ok nextPlain =>
                  rcases ih answered with ⟨keepsOn, forced⟩
                  exact ⟨keeps.trans keepsOn, forced⟩

theorem unwrap_of_forceWithin {limit steps : Nat} {plain next : Value}
    (forced : code.forceWithin limit steps plain = .ok next) : code.unwrap next = none := by
  induction steps generalizing plain with
  | zero =>
      rw [PureCode.forceWithin] at forced
      split at forced
      · cases forced
      · rename_i eager
        cases forced
        exact Option.not_isSome_iff_eq_none.mp eager
  | succ steps ih =>
      rw [PureCode.forceWithin] at forced
      split at forced
      · rename_i eager
        cases forced
        exact eager
      · exact ih forced
      · cases forced

theorem resolveField (pure : executor.IsPure context code represents) (bindings : Variables)
    {session : Session host} {value : host.Value} {plain : Value}
    (represented : represents session value plain) (node : PlanNode) (path : ResponsePath) :
    Answers represents session (executor.resolve bindings context node value path)
      (code.resolveField executor bindings node plain path) := by
  unfold Executor.resolve PureCode.resolveField
  by_cases isTypename : node.name = Schema.typenameField.name
  · rw [if_pos isTypename, if_pos isTypename]
    exact ⟨.refl _, pure.ofText session node.ownerType⟩
  · rw [if_neg isTypename, if_neg isTypename]
    cases executor.schema.field? node.ownerType node.name with
    | none => exact ⟨.refl _, rfl⟩
    | some field =>
        cases found : executor.resolvers.field? node.ownerType node.name with
        | none => exact ⟨.refl _, rfl⟩
        | some resolver =>
            simp only
            cases coerceArguments executor.schema field node.arguments bindings with
            | error error => exact ⟨.refl _, rfl⟩
            | ok arguments =>
                let info : FieldInfo :=
                  { name := node.name
                    parentType := node.ownerType
                    returnType := node.returnType.text
                    path
                    selected := node.selectedKeys }
                have called : executor.resolvers.field? info.parentType info.name = some resolver :=
                  found
                let call : FieldCall host := { parent := value, arguments, context, info }
                rcases pure.resolve represented called arguments with ⟨keeps, answered⟩
                rcases performed : Session.perform (resolver call) session with ⟨answer, later⟩
                rw [performed] at keeps answered
                simp only [Answers, bind, StateT.bind]
                rw [performed]
                cases expected : code.resolve info plain arguments with
                | error error =>
                    rw [expected] at answered
                    cases answer with
                    | ok result => cases answered
                    | error other =>
                        cases answered
                        exact ⟨keeps, rfl⟩
                | ok next =>
                    rw [expected] at answered
                    cases answer with
                    | ok result => exact ⟨keeps, answered⟩
                    | error other => cases answered

/-- What an execution asks of a pure host is what an evaluation asks of the code. -/
theorem simulates (pure : executor.IsPure context code represents) (bindings : Variables) :
    Simulates (executor.environment bindings context) (code.environment executor bindings)
      represents where
  schema := rfl
  bindings := rfl
  isNull := pure.isNull
  json? := pure.json?
  items? := pure.items?
  eager := by
    intro session value plain represented isEager
    have unwrapped : code.unwrap plain = none := by
      have lazy : executor.accessors.isLazy value = false := isEager
      rw [pure.isLazy represented] at lazy
      exact Option.not_isSome_iff_eq_none.mp (by simp [lazy])
    simp only [PureCode.environment]
    cases executor.limits.maxLazyDepth with
    | zero => simp [PureCode.forceWithin, unwrapped]
    | succ steps => simp [PureCode.forceWithin, unwrapped]
  force := by
    intro session value plain represented
    rcases pure.forceWithin executor.limits.maxLazyDepth executor.limits.maxLazyDepth represented
      with ⟨keeps, answered⟩
    refine ⟨keeps, ?_⟩
    refine Answered.imp answered ?_
    intro next nextPlain forced still
    have isEager : executor.accessors.isLazy next = false := by
      rw [pure.isLazy still, unwrap_of_forceWithin forced]
      rfl
    exact ⟨still, isEager⟩
  resolve := fun represented node path => pure.resolveField bindings represented node path
  typeOf := pure.typeOf

end Executor.IsPure

end GraphQL

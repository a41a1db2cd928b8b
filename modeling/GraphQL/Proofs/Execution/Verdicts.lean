import GraphQL.Proofs.Execution.Positions
import GraphQL.Execution.Settling

/-!
# Verdicts on values

Completing a value that is not lazy first decides what the value is for its declared type: an error,
a null, a leaf, a list of items or an object of some type. Only then does it look at the items or
fields inside. So what holds of completing values has one case for every verdict.
-/

namespace GraphQL

theorem TypeRef.listDepth_core (type : TypeRef) : type.core.listDepth = type.listDepth := by
  induction type with
  | named name => rfl
  | list item _ => rfl
  | nonNull inner ih => exact ih

/-- What a value is for its declared type. -/
inductive Verdict (Object : Type) where
  | failure (error : ExecutionError)
  | null
  | leaf (value : Json)
  | list (item : TypeRef) (items : List (ResolvedValue Object))
  | object (type : String)

variable {σ Object : Type}

namespace Environment

variable (env : Environment σ Object)

/-- The object type of a value of a composite type, as it is asked for outside of a run. -/
def typeFor? (type : SchemaType) (value : ResolvedValue Object) : StateM σ (Option String) := do
  if type.isObject then return some type.name
  let possible := env.schema.possibleTypes type.name
  match ← env.typeOf type.name value with
  | some name => return if possible.contains name then some name else none
  | none =>
      match possible with
      | [only] => return some only
      | _ => return none

/-- The verdict on a value of a named type; `type` is the type with what stands around the name. -/
def namedVerdict (node : PlanNode) (type : TypeRef) (name : String) (value : ResolvedValue Object) :
    StateM σ (Verdict Object) := do
  let invalid : Verdict Object := .failure (.invalidValue node.ownerType node.name type)
  match env.schema.type? name with
  | none => return invalid
  | some found =>
      if found.isLeaf then
        match value with
        | .json value => return .leaf value
        | _ => return invalid
      else if found.isComposite then
        match ← env.typeFor? found value with
        | some objectType => return .object objectType
        | none => return .failure (.unresolvedType name node.ownerType node.name)
      else return invalid

/-- The verdict on a value that is not lazy. -/
def verdict (node : PlanNode) (type : TypeRef) (value : ResolvedValue Object) :
    StateM σ (Verdict Object) := do
  if value.isNull then
    return if type.isNonNull then .failure (.nullForNonNull node.ownerType node.name) else .null
  else
    match type with
    | .nonNull (.nonNull inner) => verdict node inner value
    | .named name | .nonNull (.named name) => env.namedVerdict node type name value
    | .list item | .nonNull (.list item) =>
        match value.items? with
        | none => return .failure (.invalidValue node.ownerType node.name type)
        | some items => return .list item items

/-- What is done about a verdict. -/
def follow (node : PlanNode)
    (fields : String → ResolvedValue Object → ResponsePath → Run σ Object (Option ResponseTree))
    (value : ResolvedValue Object) (path : ResponsePath) :
    Verdict Object → Run σ Object (Option ResponseTree)
  | .failure error => Run.fail node path error
  | .null => return some .null
  | .leaf value => return some (.leaf value)
  | .list item items => do
      let completed ← completeItems (env.completeWith node fields item) (!item.isNonNull) path 0 items
      return completed.map (.list (!item.isNonNull))
  | .object type => fields type value path

theorem objectType?_eq (type : SchemaType) (value : ResolvedValue Object) :
    env.objectType? type value = Run.ask (env.typeFor? type value) := by
  funext progress
  unfold objectType? typeFor?
  cases type.isObject with
  | true => rfl
  | false =>
      rcases asked : env.typeOf type.name value progress.outside with ⟨name?, outside⟩
      simp only [Bool.false_eq_true, if_false, bind, StateT.bind, Run.ask, asked]
      cases name? with
      | some name => rfl
      | none => rcases env.schema.possibleTypes type.name with _ | ⟨only, _ | ⟨other, rest⟩⟩ <;> rfl

variable {env} {node : PlanNode}
  {fields : String → ResolvedValue Object → ResponsePath → Run σ Object (Option ResponseTree)}

theorem completeNamed_eq (type : TypeRef) (name : String) (value : ResolvedValue Object)
    (path : ResponsePath) :
    env.completeNamed node fields type name value path =
      Run.ask (env.namedVerdict node type name value) >>= env.follow node fields value path := by
  unfold completeNamed namedVerdict
  cases env.schema.type? name with
  | none => rfl
  | some found =>
      simp only
      by_cases isLeaf : found.isLeaf = true
      · rw [if_pos isLeaf, if_pos isLeaf]
        cases value <;> rfl
      · rw [if_neg isLeaf, if_neg isLeaf]
        by_cases isComposite : found.isComposite = true
        · rw [if_pos isComposite, if_pos isComposite, objectType?_eq]
          funext progress
          rcases asked : env.typeFor? found value progress.outside with ⟨type?, outside⟩
          simp only [bind, StateT.bind, Run.ask, asked]
          cases type? <;> rfl
        · rw [if_neg isComposite, if_neg isComposite]
          rfl

theorem completeWith_of_lazy {type : TypeRef} {value : ResolvedValue Object}
    (isLazy : env.isLazy value = true) (path : ResponsePath) :
    env.completeWith node fields type value path = Run.postpone { path, node, type, value } := by
  unfold completeWith
  rw [if_pos isLazy]

/-- Completing a value that is not lazy follows the verdict on it. -/
theorem completeWith_of_eager {type : TypeRef} {value : ResolvedValue Object}
    (isEager : env.isLazy value = false) (path : ResponsePath) :
    env.completeWith node fields type value path =
      Run.ask (env.verdict node type value) >>= env.follow node fields value path := by
  induction type using verdict.induct value with
  | case1 type isNull =>
      unfold completeWith verdict
      rw [if_neg (by simp [isEager]), if_pos isNull, if_pos isNull]
      cases type.isNonNull <;> rfl
  | case2 isNull inner ih =>
      unfold completeWith verdict
      rw [if_neg (by simp [isEager]), if_neg isNull, if_neg isNull]
      exact ih
  | case3 isNull name | case4 isNull name =>
      unfold completeWith verdict
      rw [if_neg (by simp [isEager]), if_neg isNull, if_neg isNull]
      exact completeNamed_eq _ _ _ _
  | case5 isNull item isItems | case6 isNull item items isItems
  | case7 isNull item isItems | case8 isNull item items isItems =>
      unfold completeWith verdict
      rw [if_neg (by simp [isEager]), if_neg isNull, if_neg isNull]
      simp only [isItems]
      rfl

theorem namedVerdict_ne_list {type item : TypeRef} {name : String} {value : ResolvedValue Object}
    {items : List (ResolvedValue Object)} {state : σ} :
    (env.namedVerdict node type name value state).1 ≠ .list item items := by
  intro isList
  unfold namedVerdict at isList
  cases isFound : env.schema.type? name with
  | none =>
      rw [isFound] at isList
      cases isList
  | some found =>
      simp only [isFound] at isList
      split at isList
      · cases value <;> cases isList
      · split at isList
        · rcases asked : env.typeFor? found value state with ⟨type?, outside⟩
          simp only [bind, StateT.bind, asked] at isList
          cases type? <;> cases isList
        · cases isList

/-- A value is found to be a list only where its type is one. -/
theorem core_of_verdict {type item : TypeRef} {value : ResolvedValue Object}
    {items : List (ResolvedValue Object)} {state : σ}
    (isList : (env.verdict node type value state).1 = .list item items) :
    type.core = .list item := by
  induction type using verdict.induct value with
  | case1 type isNull =>
      unfold verdict at isList
      rw [if_pos isNull] at isList
      cases strict : type.isNonNull <;> rw [strict] at isList <;> cases isList
  | case2 isNull inner ih =>
      unfold verdict at isList
      rw [if_neg isNull] at isList
      exact ih isList
  | case3 isNull name | case4 isNull name =>
      unfold verdict at isList
      rw [if_neg isNull] at isList
      exact absurd isList namedVerdict_ne_list
  | case5 isNull element isItems | case7 isNull element isItems =>
      unfold verdict at isList
      simp only [if_neg isNull, isItems] at isList
      cases isList
  | case6 isNull element found isItems | case8 isNull element found isItems =>
      unfold verdict at isList
      simp only [if_neg isNull, isItems] at isList
      cases isList
      rfl

/-- The type of the items of a list has one list less around its name. -/
theorem listDepth_of_verdict {type item : TypeRef} {value : ResolvedValue Object}
    {items : List (ResolvedValue Object)} {state : σ}
    (isList : (env.verdict node type value state).1 = .list item items) :
    item.listDepth + 1 = type.listDepth := by
  rw [← type.listDepth_core, core_of_verdict isList]
  rfl

end Environment
end GraphQL

import GraphQL.Proofs.Execution.Conformance
import Mathlib.Data.List.Induction

/-!
# Errors and nulls

The errors of a response and the nulls in its data belong together. No two errors have one path. For
every error there is a null at the nearest place above it that can be null, or still further up. And
every null that was not produced where it stands is there for an error from which all places on the
way up to it cannot be null.
-/

namespace GraphQL

namespace Json

/-- The part of a JSON value directly below it. -/
def child? : Json → PathSegment → Option Json
  | array items, .index position => items[position]?
  | object fields, .field key => OrderedMap.find? fields key
  | _, _ => none

/-- The value at a path of a JSON value. -/
def along? (json : Json) : ResponsePath → Option Json
  | [] => some json
  | segment :: rest =>
      match json.child? segment with
      | some child => child.along? rest
      | none => none

theorem along?_of_child? {json child : Json} {segment : PathSegment}
    (found : json.child? segment = some child) (rest : ResponsePath) :
    json.along? (segment :: rest) = child.along? rest := by
  rw [along?, found]

end Json

variable {Object : Type}

/-- A path is a position that can be null. -/
def IsNullable (trace : List (Occurrence Object)) (path : ResponsePath) : Prop :=
  ∃ node type, Position trace path node type ∧ type.isNonNull = false

/-- A path is a position that cannot be null. -/
def IsStrict (trace : List (Occurrence Object)) (path : ResponsePath) : Prop :=
  ∃ node type, Position trace path node type ∧ type.isNonNull = true

/-- A path is a position of a leaf type. -/
def IsLeafPosition (schema : Schema) (trace : List (Occurrence Object)) (path : ResponsePath) :
    Prop :=
  ∃ node type name found, Position trace path node type ∧ type.core = .named name ∧
    schema.type? name = some found ∧ found.isLeaf = true

/-- The longest front of a path that is a position that can be null, or the root. -/
structure IsNearest (trace : List (Occurrence Object)) (path front : ResponsePath) : Prop where
  isPrefix : front <+: path
  nullable : front = [] ∨ IsNullable trace front
  longest : ∀ other, other <+: path → IsNullable trace other → other <+: front

/-- The errors of an execution and the nulls in its data belong together. -/
structure Correspond (schema : Schema) (trace : List (Occurrence Object)) (data : Json)
    (errors : List FieldError) : Prop where
  /-- A position is one of one field and has one type. -/
  unique : ∀ path node other type otherType, Position trace path node type →
    Position trace path other otherType → node = other ∧ type = otherType
  distinct : (errors.map FieldError.path).Nodup
  reached : ∀ error ∈ errors, ∃ path, error.path = some path ∧
    ∀ front, front <+: path → IsReached trace front
  nulled : ∀ error ∈ errors, ∃ path nearest front, error.path = some path ∧
    IsNearest trace path nearest ∧ front <+: nearest ∧ data.along? front = some .null
  caused : ∀ path, data.along? path = some .null →
    (∀ front, front <+: path → front ≠ path → ¬IsLeafPosition schema trace front) →
    (IsNullable trace path ∧ ∃ value, Produced trace path value ∧ value.isNull = true) ∨
      ∃ error ∈ errors, ∃ rest, error.path = some (path ++ rest) ∧
        ∀ front, front <+: rest → front ≠ [] → IsStrict trace (path ++ front)

/-- Every path has a nearest front. -/
theorem exists_isNearest (trace : List (Occurrence Object)) (path : ResponsePath) :
    ∃ nearest, IsNearest trace path nearest := by
  induction path using List.reverseRecOn with
  | nil =>
      refine ⟨[], List.prefix_refl _, .inl rfl, ?_⟩
      intro other isPrefix _
      exact isPrefix
  | append_singleton path segment ih =>
      by_cases nullable : IsNullable trace (path ++ [segment])
      · exact ⟨_, List.prefix_refl _, .inr nullable, fun other isPrefix _ => isPrefix⟩
      · rcases ih with ⟨nearest, isPrefix, canBeNull, longest⟩
        refine ⟨nearest, isPrefix.trans (List.prefix_append _ _), canBeNull, ?_⟩
        intro other isFront isNullable
        rcases List.prefix_concat_iff.mp isFront with rfl | isFront
        · exact absurd isNullable nullable
        · exact longest other isFront isNullable

/-! ## Positions -/

theorem mem_filterMap_call? {trace : List (Occurrence Object)} {call : Call Object} :
    call ∈ trace.filterMap Occurrence.call? ↔ .resolved call ∈ trace := by
  rw [List.mem_filterMap]
  constructor
  · rintro ⟨occurrence, occurs, isCall⟩
    cases occurrence with
    | resolved other =>
        cases isCall
        exact occurs
    | _ => cases isCall
  · intro occurs
    exact ⟨_, occurs, rfl⟩

/-- If no two calls have one path and calls are made at fields, a position has one type. -/
theorem Position.unique {trace : List (Occurrence Object)} {path : ResponsePath}
    {node other : PlanNode} {type otherType : TypeRef}
    (distinct : ((trace.filterMap Occurrence.call?).map Call.path).Nodup)
    (placed : ∀ call ∈ trace.filterMap Occurrence.call?,
      ∃ parent, IsReached trace parent ∧ call.path = parent ++ [.field call.node.responseKey])
    (first : Position trace path node type) (second : Position trace path other otherType) :
    node = other ∧ type = otherType := by
  induction first generalizing other otherType with
  | @field node path answer occurs =>
      cases second with
      | @field _ _ otherAnswer otherOccurs =>
          cases List.inj_on_of_nodup_map distinct (mem_filterMap_call?.mpr occurs)
            (mem_filterMap_call?.mpr otherOccurs) rfl
          exact ⟨rfl, rfl⟩
      | item outer isList position =>
          -- Calls are made at fields, so their paths do not end with an index.
          rcases placed _ (mem_filterMap_call?.mpr occurs) with ⟨parent, _, same⟩
          cases (List.append_inj' same rfl).2
  | @item path node type item outer isList position ih =>
      generalize same : path ++ [PathSegment.index position] = whole at second
      cases second with
      | field occurs =>
          rcases placed _ (mem_filterMap_call?.mpr occurs) with ⟨parent, _, isField⟩
          cases (List.append_inj' (same.trans isField) rfl).2
      | item otherOuter otherIsList otherPosition =>
          cases (List.append_inj' same rfl).1
          rcases ih otherOuter with ⟨rfl, rfl⟩
          rw [isList] at otherIsList
          cases otherIsList
          exact ⟨rfl, rfl⟩

/-- On the way to what is reached everything is reached, if calls are made at fields of what is
reached. -/
theorem IsReached.of_prefix {trace : List (Occurrence Object)} {path front : ResponsePath}
    (placed : ∀ call ∈ trace.filterMap Occurrence.call?,
      ∃ parent, IsReached trace parent ∧ call.path = parent ++ [.field call.node.responseKey])
    (reached : IsReached trace path) (isPrefix : front <+: path) : IsReached trace front := by
  induction path using List.reverseRecOn with
  | nil => exact .inl (List.prefix_nil.mp isPrefix)
  | append_singleton path segment ih =>
      rcases List.prefix_concat_iff.mp isPrefix with rfl | isPrefix
      · exact reached
      refine ih ?_ isPrefix
      rcases reached with isRoot | ⟨node, type, position⟩
      · simp at isRoot
      · generalize same : path ++ [segment] = whole at position
        cases position with
        | field occurs =>
            rcases placed _ (mem_filterMap_call?.mpr occurs) with ⟨parent, reached, isField⟩
            rwa [(List.append_inj' (same.trans isField) rfl).1]
        | item outer isList position =>
            rw [(List.append_inj' same rfl).1]
            exact outer.isReached

section

variable {known : Evidence Object} {node : PlanNode} {type : TypeRef} {path : ResponsePath}
  {tree branch : ResponseTree} {segment : PathSegment} {nullable : Bool} {children : List PlanNode}

/-! ## Data and trees -/

/-- The parts of data that are not a leaf are the branches of the tree. -/
theorem child?_toJson (isNot : ∀ value, tree ≠ .leaf value) (segment : PathSegment) :
    tree.toJson.child? segment = (tree.branch? segment).map fun entry => entry.2.toJson := by
  cases tree with
  | leaf value => exact absurd rfl (isNot value)
  | list nullable items =>
      cases segment with
      | field key => rfl
      | index position =>
          simp [ResponseTree.toJson, Json.child?, ResponseTree.branch?, Agrees.itemsToJson_eq,
            Function.comp_def]
  | object fields =>
      cases segment with
      | index position => rfl
      | field key =>
          rw [ResponseTree.toJson, Agrees.fieldsToJson_eq]
          exact OrderedMap.find?_mapValues (fun entry : Bool × ResponseTree => entry.2.toJson)
            fields key
  | _ => rfl

theorem along?_toJson (found : tree.branch? segment = some (nullable, branch))
    (rest : ResponsePath) : tree.toJson.along? (segment :: rest) = branch.toJson.along? rest := by
  apply Json.along?_of_child?
  rw [child?_toJson ?_, found]
  · rfl
  · rintro value rfl
    cases found

theorem exists_branch_of_along? {rest : ResponsePath} {value : Json}
    (found : tree.toJson.along? (segment :: rest) = some value)
    (isNot : ∀ value, tree ≠ .leaf value) :
    ∃ nullable branch, tree.branch? segment = some (nullable, branch) ∧
      branch.toJson.along? rest = some value := by
  rw [Json.along?, child?_toJson isNot] at found
  cases isBranch : tree.branch? segment with
  | none =>
      rw [isBranch] at found
      cases found
  | some entry =>
      rw [isBranch] at found
      exact ⟨entry.1, entry.2, rfl, found⟩

/-- Where a path leads into a null, the null stands at a position that can be null. -/
theorem Shaped.exists_null {rest : ResponsePath} (shaped : Shaped known node type path tree)
    (position : Position known.trace path node type) (isNulled : tree.sight rest = .nulled) :
    ∃ front, front <+: rest ∧ IsNullable known.trace (path ++ front) ∧
      tree.toJson.along? front = some .null := by
  induction rest generalizing node type path tree with
  | nil =>
      cases shaped with
      | null canBeNull cause =>
          refine ⟨[], List.nil_prefix, ?_, rfl⟩
          rw [List.append_nil]
          exact ⟨node, type, position, canBeNull⟩
      | _ => cases isNulled
  | cons segment rest ih =>
      by_cases isNull : tree = .null
      · subst isNull
        cases shaped with
        | null canBeNull cause =>
            refine ⟨[], List.nil_prefix, ?_, rfl⟩
            rw [List.append_nil]
            exact ⟨node, type, position, canBeNull⟩
      · rcases ResponseTree.exists_branch_of_nulled isNulled isNull with
          ⟨nullable, branch, found, below⟩
        rcases shaped.branch position found with ⟨inner, innerType, innerPosition, innerShaped⟩
        rcases ih innerShaped innerPosition below with ⟨front, isPrefix, canBeNull, isJson⟩
        refine ⟨segment :: front, (List.prefix_cons_inj segment).mpr isPrefix, ?_, ?_⟩
        · rwa [List.append_assoc] at canBeNull
        · rw [along?_toJson found]
          exact isJson

/-- Every null outside of leaves stands at a position that can be null and has a cause. -/
theorem Shaped.nulls {rest : ResponsePath} (shaped : Shaped known node type path tree)
    (position : Position known.trace path node type) (settled : known.tasks = [])
    (isNull : tree.toJson.along? rest = some .null)
    (outside : ∀ front, front <+: rest → front ≠ rest →
      ¬IsLeafPosition known.schema known.trace (path ++ front)) :
    IsNullable known.trace (path ++ rest) ∧ known.Nulls (path ++ rest) := by
  induction rest generalizing node type path tree with
  | nil =>
      rw [List.append_nil]
      cases shaped with
      | waiting awaited =>
          rcases awaited with ⟨task, member, _⟩
          rw [settled] at member
          cases member
      | null canBeNull cause => exact ⟨⟨node, type, position, canBeNull⟩, cause⟩
      | leaf isNamed isFound isLeaf notNull produced =>
          cases isNull
          cases notNull
      | list isList each => cases isNull
      | object isNamed isFound isComposite concrete selected heads distinct resolved each =>
          cases isNull
  | cons segment rest ih =>
      have isNot : ∀ value, tree ≠ .leaf value := by
        rintro value rfl
        cases shaped with
        | leaf isNamed isFound isLeaf notNull produced =>
            apply outside [] List.nil_prefix (by simp)
            rw [List.append_nil]
            exact ⟨node, type, _, _, position, isNamed, isFound, isLeaf⟩
      rcases exists_branch_of_along? isNull isNot with ⟨nullable, branch, found, below⟩
      rcases shaped.branch position found with ⟨inner, innerType, innerPosition, innerShaped⟩
      have further := ih innerShaped innerPosition below ?_
      · rwa [List.append_assoc] at further
      · intro front isPrefix isProper isLeaf
        rw [List.append_assoc] at isLeaf
        exact outside (segment :: front) ((List.prefix_cons_inj segment).mpr isPrefix)
          (fun same => isProper (List.cons.inj same).2) isLeaf

namespace Evidence.HasRoot

/-- Where a path leads into a null, the null stands at the root or a position that can be null. -/
theorem exists_null (root : known.HasRoot children tree) (isNulled : tree.sight path = .nulled) :
    ∃ front, front <+: path ∧ (front = [] ∨ IsNullable known.trace front) ∧
      tree.toJson.along? front = some .null := by
  cases root with
  | null fails => exact ⟨[], List.nil_prefix, .inl rfl, rfl⟩
  | object has =>
      cases path with
      | nil => cases isNulled
      | cons segment rest =>
          rcases ResponseTree.exists_branch_of_nulled isNulled (by simp) with
            ⟨nullable, branch, found, below⟩
          rcases has.branch found with ⟨node, type, position, shaped⟩
          rcases shaped.exists_null position below with ⟨front, isPrefix, canBeNull, isJson⟩
          refine ⟨segment :: front, (List.prefix_cons_inj segment).mpr isPrefix, .inr canBeNull, ?_⟩
          rw [along?_toJson found]
          exact isJson

/-- Every null outside of leaves was produced where it can be null, or something failed. -/
theorem nulls (root : known.HasRoot children tree) (settled : known.tasks = [])
    (isNull : tree.toJson.along? path = some .null)
    (outside : ∀ front, front <+: path → front ≠ path →
      ¬IsLeafPosition known.schema known.trace front) :
    (IsNullable known.trace path ∧ ∃ value, Produced known.trace path value ∧
      value.isNull = true) ∨ known.FailsBelow path := by
  cases root with
  | null fails =>
      cases path with
      | nil => exact .inr fails
      | cons segment rest => cases isNull
  | object has =>
      cases path with
      | nil => cases isNull
      | cons segment rest =>
          rcases exists_branch_of_along? isNull (by simp) with ⟨nullable, branch, found, below⟩
          rcases has.branch found with ⟨node, type, position, shaped⟩
          rcases shaped.nulls position settled below fun front isPrefix isProper =>
              outside (segment :: front) ((List.prefix_cons_inj segment).mpr isPrefix)
                fun same => isProper (List.cons.inj same).2 with ⟨canBeNull, cause | fails⟩
          · exact .inl ⟨canBeNull, cause⟩
          · exact .inr fails

end Evidence.HasRoot

end

/-! ## Responses -/

section

variable {σ : Type} {env : Environment σ Object} {children : List PlanNode} {tree : ResponseTree}
  {progress : Progress (Record σ Object) Object}

/-- The errors and nulls of a settled execution belong together. -/
theorem Outcome.correspond (outcome : Outcome env children tree progress) :
    Correspond env.schema progress.outside.trace tree.toJson progress.errors where
  unique _ _ _ _ _ first second :=
    first.unique (outcome.scattered .call).distinct outcome.placed.calls second
  distinct := by
    have distinct := (outcome.scattered .error).distinct
    have paths : (progress.yield []).paths .error =
        (progress.errors.map FieldError.path).map fun path => path.getD [] := by
      rw [List.map_map]
      rfl
    rw [paths] at distinct
    exact distinct.of_map _
  reached := by
    intro error member
    rcases outcome.placed.errors error member with ⟨path, reached, isHere⟩
    exact ⟨path, isHere, fun front isPrefix => reached.of_prefix outcome.placed.calls isPrefix⟩
  nulled := by
    intro error member
    rcases outcome.placed.errors error member with ⟨path, _, isHere⟩
    have marked : path ∈ (progress.yield []).paths .error :=
      List.mem_map.mpr ⟨error, member, by rw [isHere]; rfl⟩
    rcases (outcome.scattered .error).below path marked with ⟨rest, same, isNulled⟩
    rw [List.nil_append] at same
    subst same
    rcases outcome.root.exists_null isNulled with ⟨front, isPrefix, canBeNull, isJson⟩
    rcases exists_isNearest progress.outside.trace path with ⟨nearest, isNearest⟩
    refine ⟨path, nearest, front, isHere, isNearest, ?_, isJson⟩
    -- The null that was found stands at the nearest front or above it since none is longer.
    rcases canBeNull with rfl | canBeNull
    · exact List.nil_prefix
    · exact isNearest.longest front isPrefix canBeNull
  caused _ isNull outside := outcome.root.nulls rfl isNull outside

end

/-- The errors of a response and the nulls in its data belong together. -/
theorem Executor.execute_corresponds {host : Host} {executor : Executor host}
    (typed : executor.accessors.IsTyped) {document : Document} {lines? : Option LineIndex}
    {request : Request host} {operation : PlanOperation} {bindings : Variables}
    (prepared : executor.prepare (Plan.ofDocument executor.schema document lines?) request.operation
      request.bindings = .ok (operation, bindings)) (session : Session host) :
    let record := executor.record request operation bindings session
    executor.execute (Plan.ofDocument executor.schema document lines?) request session =
        (.ofData record.1.toJson record.2.errors, record.2.outside.outside) ∧
      Correspond executor.schema record.2.outside.trace record.1.toJson record.2.errors :=
  ⟨execute_eq_record prepared session, (record_outcome typed prepared session).correspond⟩

namespace LazyFields

theorem fails :
    ((executor schema).prepare plan none []).toOption.any (fun (operation, bindings) =>
      let record := (executor schema).record request operation bindings session
      record.2.errors.map FieldError.path == [some [.field "left", .field "secret"]] &&
        (record.1.toJson.along? [.field "left"]).any (· == .null)) = true := by
  decide +kernel

theorem errors_and_nulls :
    ∃ operation bindings,
      (executor schema).prepare plan request.operation request.bindings = .ok (operation, bindings) ∧
      let record := (executor schema).record request operation bindings session
      (executor schema).execute plan request session =
          (.ofData record.1.toJson record.2.errors, record.2.outside.outside) ∧
        Correspond schema record.2.outside.trace record.1.toJson record.2.errors ∧
        (record.2.errors.map FieldError.path == [some [.field "left", .field "secret"]]) = true ∧
        (record.1.toJson.along? [.field "left"]).any (· == .null) = true := by
  rcases exists_ok_of_any fails with ⟨⟨operation, bindings⟩, prepared, shows⟩
  have prepares : (executor schema).prepare plan request.operation request.bindings =
      .ok (operation, bindings) := prepared
  rcases Executor.execute_corresponds (isTyped schema) prepares session with ⟨executed, correspond⟩
  rcases Bool.and_eq_true_iff.mp shows with ⟨errors, isNull⟩
  exact ⟨operation, bindings, prepares, executed, correspond, errors, isNull⟩

end LazyFields

end GraphQL

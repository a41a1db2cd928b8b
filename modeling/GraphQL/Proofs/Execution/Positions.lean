import GraphQL.Proofs.Execution.Reference

/-!
# The places of a response

Every path of a response leads to one place: the field or item there, its type and the outcome it
has before it is forced. What an evaluation gives at a place is put together from what it gives at
the places directly below.
-/

namespace GraphQL

/-- The type without the marks around it that forbid null. -/
def TypeRef.core : TypeRef → TypeRef
  | nonNull inner => inner.core
  | type => type

/-- The children of a node for an object type. -/
def childrenOf (typedChildren : List (String × List (String × PlanNode))) (type : String) :
    PlanChildren :=
  (OrderedMap.find? typedChildren type).getD []

/-- No two children, at any depth, have one response key. -/
inductive PlanChildren.IsKeyed : PlanChildren → Prop where
  | intro {children : PlanChildren}
      (distinct : (children.map fun entry => entry.2.responseKey).Nodup)
      (inner : ∀ entry ∈ children, ∀ typed ∈ entry.2.typedChildren, IsKeyed typed.2) :
      IsKeyed children

/-- The included children, in order. -/
def PlanChildren.included (children : PlanChildren) (bindings : Variables) : List PlanNode :=
  (List.filter (fun entry => entry.2.isIncluded bindings) children).map Prod.snd

theorem PlanChildren.included_cons (key : String) (node : PlanNode) (rest : PlanChildren)
    (bindings : Variables) :
    PlanChildren.included ((key, node) :: rest) bindings =
      if node.isIncluded bindings then node :: rest.included bindings
      else rest.included bindings := by
  cases included : node.isIncluded bindings <;> simp [PlanChildren.included, included]

/-- The keys of the included children are among the keys of all. -/
theorem PlanChildren.included_keys_sublist (children : PlanChildren) (bindings : Variables) :
    ((children.included bindings).map PlanNode.responseKey).Sublist
      (children.map fun entry => entry.2.responseKey) := by
  rw [included, List.map_map]
  exact List.filter_sublist.map _

/-- The response key of a field, and whether the field can be null. -/
def PlanNode.head (node : PlanNode) : String × Bool :=
  (node.responseKey, !node.returnType.isNonNull)

/-- A field or item of a response and its outcome. -/
structure Place (Value : Type) where
  node : PlanNode
  type : TypeRef
  outcome : Except ExecutionError Value

/-! ## What stands below a place -/

namespace Evaluation

/-- The items of a list, as a report about all paths has them. -/
def itemsAt (report : ResponsePath → Evaluation Json) (nullable : Bool) (path : ResponsePath) :
    Nat → Nat → Evaluation (List Json)
  | _, 0 => { result := some [], errors := [] }
  | position, count + 1 =>
      (report (path ++ [.index position])).before nullable id
        (itemsAt report nullable path (position + 1) count)

/-- The fields of an object with their keys, as a report about all paths has them. -/
def fieldsAt (report : ResponsePath → Evaluation Json) (path : ResponsePath) :
    List (String × Bool) → Evaluation (List (String × Json))
  | [] => { result := some [], errors := [] }
  | (key, nullable) :: rest =>
      (report (path ++ [.field key])).before nullable (fun value => (key, value))
        (fieldsAt report path rest)

section

variable {report : ResponsePath → Evaluation Json} {path : ResponsePath}

theorem itemsAt_result_eq_none {nullable : Bool} {start count position : Nat}
    (member : position < count)
    (fails : filled nullable (report (path ++ [.index (start + position)])).result = none) :
    (itemsAt report nullable path start count).result = none := by
  induction count generalizing start position with
  | zero => cases member
  | succ count ih =>
      cases position with
      | zero =>
          rw [Nat.add_zero] at fails
          simp [itemsAt, before, fails]
      | succ position =>
          have others : (itemsAt report nullable path (start + 1) count).result = none := by
            apply ih (Nat.lt_of_succ_lt_succ member)
            rwa [Nat.add_right_comm, Nat.add_assoc]
          simp [itemsAt, before, others]

theorem fieldsAt_result_eq_none {heads : List (String × Bool)} {head : String × Bool}
    (member : head ∈ heads)
    (fails : filled head.2 (report (path ++ [.field head.1])).result = none) :
    (fieldsAt report path heads).result = none := by
  induction heads with
  | nil => cases member
  | cons first rest ih =>
      rcases List.mem_cons.mp member with rfl | member
      · simp [fieldsAt, before, fails]
      · simp [fieldsAt, before, ih member]

theorem fieldsAt_append_result_eq_none {heads more : List (String × Bool)}
    (fails : (fieldsAt report path heads).result = none) :
    (fieldsAt report path (heads ++ more)).result = none := by
  induction heads with
  | nil => cases fails
  | cons head rest ih =>
      simp only [List.cons_append, fieldsAt, before] at fails ⊢
      cases first : filled head.2 (report (path ++ [.field head.1])).result with
      | none => rfl
      | some value =>
          cases others : (fieldsAt report path rest).result with
          | some values => simp [first, others] at fails
          | none => simp [ih others]

theorem mem_itemsAt_errors {nullable : Bool} {start count : Nat} {error : FieldError} :
    error ∈ (itemsAt report nullable path start count).errors ↔
      ∃ position < count, error ∈ (report (path ++ [.index (start + position)])).errors := by
  induction count generalizing start with
  | zero => simp [itemsAt]
  | succ count ih =>
      simp only [itemsAt, before, List.mem_append, ih]
      constructor
      · rintro (first | ⟨position, bound, later⟩)
        · exact ⟨0, Nat.succ_pos _, first⟩
        · exact ⟨position + 1, Nat.succ_lt_succ bound, by
            rwa [← Nat.add_assoc, Nat.add_right_comm]⟩
      · rintro ⟨position, bound, inside⟩
        cases position with
        | zero => exact .inl inside
        | succ position =>
            exact .inr ⟨position, Nat.lt_of_succ_lt_succ bound, by
              rwa [Nat.add_right_comm, Nat.add_assoc]⟩

theorem mem_fieldsAt_errors {heads : List (String × Bool)} {error : FieldError} :
    error ∈ (fieldsAt report path heads).errors ↔
      ∃ head ∈ heads, error ∈ (report (path ++ [.field head.1])).errors := by
  induction heads with
  | nil => simp [fieldsAt]
  | cons first rest ih => simp [fieldsAt, before, ih]

theorem itemsAt_congr {other : ResponsePath → Evaluation Json} {nullable : Bool}
    {start count : Nat}
    (same : ∀ position, report (path ++ [.index position]) = other (path ++ [.index position])) :
    itemsAt report nullable path start count = itemsAt other nullable path start count := by
  induction count generalizing start with
  | zero => rfl
  | succ count ih => rw [itemsAt, itemsAt, same, ih]

theorem fieldsAt_congr {other : ResponsePath → Evaluation Json} {heads : List (String × Bool)}
    (same : ∀ key, report (path ++ [.field key]) = other (path ++ [.field key])) :
    fieldsAt report path heads = fieldsAt other path heads := by
  induction heads with
  | nil => rfl
  | cons head rest ih => rw [fieldsAt, fieldsAt, same, ih]

theorem itemsAt_result {nullable : Bool} {start : Nat} {values : List Json}
    (each : ∀ position value, values[position]? = some value →
      filled nullable (report (path ++ [.index (start + position)])).result = some value) :
    (itemsAt report nullable path start values.length).result = some values := by
  induction values generalizing start with
  | nil => rfl
  | cons first rest ih =>
      have others : (itemsAt report nullable path (start + 1) rest.length).result = some rest := by
        apply ih
        intro position value found
        have later := each (position + 1) value found
        rwa [← Nat.add_assoc, Nat.add_right_comm] at later
      have head := each 0 first rfl
      rw [Nat.add_zero] at head
      simp [itemsAt, before, others, head]

theorem fieldsAt_result {values : List (String × Bool × Json)}
    (each : ∀ key nullable value, (key, nullable, value) ∈ values →
      filled nullable (report (path ++ [.field key])).result = some value) :
    (fieldsAt report path (values.map fun entry => (entry.1, entry.2.1))).result =
      some (values.map fun entry => (entry.1, entry.2.2)) := by
  induction values with
  | nil => rfl
  | cons first rest ih =>
      have others := ih fun key nullable value member =>
        each key nullable value (List.mem_cons_of_mem _ member)
      simp [fieldsAt, before, others, each first.1 first.2.1 first.2.2 List.mem_cons_self]

end

end Evaluation

namespace PureEnvironment

variable {Value : Type} (env : PureEnvironment Value)

/-- What is evaluated at a place. -/
def evaluatePlace (place : Place Value) (path : ResponsePath) : Evaluation Json :=
  match place.outcome with
  | .ok value =>
      env.forced place.node
        (env.completeWith place.node (env.evaluateTyped place.node.typedChildren) place.type) value
        path
  | .error error => .fail place.node path error

/-- The place of an included field. -/
def fieldPlace (node : PlanNode) (parent : Value) (path : ResponsePath) : Place Value :=
  { node
    type := node.returnType
    outcome := env.resolve node parent (path ++ [.field node.responseKey]) }

/-- The place of the field with a response key, among the children for an object. -/
def fieldPlace? (children : PlanChildren) (parent : Value) (path : ResponsePath) (key : String) :
    Option (Place Value) :=
  (List.find? (fun entry => entry.2.isIncluded env.bindings && entry.2.responseKey == key)
    children).map fun entry => env.fieldPlace entry.2 parent path

/-- The place one step below another one. -/
def inner? (place : Place Value) (path : ResponsePath) (segment : PathSegment) :
    Option (Place Value) := do
  let outcome ← place.outcome.toOption
  let value ← (env.force outcome).toOption
  match place.type.core, segment with
  | .list item, .index position =>
      let items ← env.items? value
      let outcome ← items[position]?
      return { node := place.node, type := item, outcome := .ok outcome }
  | .named name, .field key =>
      let found ← env.schema.type? name
      let objectType ← env.objectType? found value
      env.fieldPlace? (childrenOf place.node.typedChildren objectType) value path key
  | _, _ => none

/-- The place to which some more steps lead. -/
def follow : ResponsePath → Place Value → ResponsePath → Option (Place Value)
  | _, place, [] => some place
  | path, place, segment :: rest =>
      (env.inner? place path segment).bind fun inner => follow (path ++ [segment]) inner rest

/-- The place at a path, from the fields of the root. -/
def placeAt (children : PlanChildren) (root : Value) : ResponsePath → Option (Place Value)
  | .field key :: rest =>
      (env.fieldPlace? children root [] key).bind fun place => env.follow [.field key] place rest
  | _ => none

/-- What is evaluated at every path. -/
def report (children : PlanChildren) (root : Value) (path : ResponsePath) : Evaluation Json :=
  match env.placeAt children root path with
  | some place => env.evaluatePlace place path
  | none => (env.evaluateFields children root []).map .object

variable {env}

theorem follow_append {path : ResponsePath} {place : Place Value} {first second : ResponsePath} :
    env.follow path place (first ++ second) =
      (env.follow path place first).bind fun inner => env.follow (path ++ first) inner second := by
  induction first generalizing path place with
  | nil => simp [follow]
  | cons segment rest ih =>
      simp only [List.cons_append, follow]
      cases env.inner? place path segment with
      | none => rfl
      | some inner =>
          simp only [Option.bind_some, ih, List.append_assoc, List.singleton_append]

/-- One step further on the way to a place. -/
theorem placeAt_append {children : PlanChildren} {root : Value} {path : ResponsePath}
    {place : Place Value} (found : env.placeAt children root path = some place)
    (segment : PathSegment) :
    env.placeAt children root (path ++ [segment]) = env.inner? place path segment := by
  cases path with
  | nil => cases found
  | cons first rest =>
      cases first with
      | index position => cases found
      | field key =>
          simp only [placeAt, List.cons_append] at found ⊢
          rcases Option.bind_eq_some_iff.mp found with ⟨start, starts, follows⟩
          simp only [starts, Option.bind_some, follow_append, follows, follow, List.singleton_append]
          cases env.inner? place (.field key :: rest) segment <;> rfl

theorem evaluateField_eq (node : PlanNode) (parent : Value) (path : ResponsePath) :
    env.evaluateField node parent (path ++ [.field node.responseKey]) =
      env.evaluatePlace (env.fieldPlace node parent path) (path ++ [.field node.responseKey]) := by
  cases node
  rfl

/-! ## Evaluations and their parts -/

/-- The keys of the included fields, each with whether it can be null. -/
def heads (env : PureEnvironment Value) (children : PlanChildren) : List (String × Bool) :=
  (List.filter (fun entry => entry.2.isIncluded env.bindings) children).map fun entry =>
    (entry.2.responseKey, !entry.2.returnType.isNonNull)

theorem heads_eq (children : PlanChildren) :
    env.heads children = (children.included env.bindings).map PlanNode.head := by
  rw [PlanChildren.included, List.map_map]
  rfl

theorem heads_append (children others : PlanChildren) :
    env.heads (children ++ others) = env.heads children ++ env.heads others := by
  simp [heads]

theorem nodup_heads {children : PlanChildren}
    (distinct : (children.map fun entry => entry.2.responseKey).Nodup) :
    ((env.heads children).map Prod.fst).Nodup := by
  rw [heads, List.map_map]
  exact distinct.sublist (List.filter_sublist.map _)

theorem fieldPlace?_of_mem {children : PlanChildren}
    (distinct : (children.map fun entry => entry.2.responseKey).Nodup) {key : String}
    {node : PlanNode} (member : (key, node) ∈ children)
    (included : node.isIncluded env.bindings = true) (parent : Value) (path : ResponsePath) :
    env.fieldPlace? children parent path node.responseKey = some (env.fieldPlace node parent path) := by
  unfold fieldPlace?
  induction children with
  | nil => cases member
  | cons first rest ih =>
      rw [List.map_cons, List.nodup_cons] at distinct
      rw [List.find?_cons]
      rcases List.mem_cons.mp member with rfl | member
      · simp [included]
      · have other : first.2.responseKey ≠ node.responseKey := by
          intro same
          exact distinct.1 (same ▸ List.mem_map_of_mem
            (f := fun entry : String × PlanNode => entry.2.responseKey) member)
        simp only [beq_eq_false_iff_ne.mpr other, Bool.and_false]
        exact ih distinct.2 member

section

variable {children : PlanChildren} {root : Value}

theorem report_eq {path : ResponsePath} {place : Place Value}
    (found : env.placeAt children root path = some place) :
    env.report children root path = env.evaluatePlace place path := by
  simp only [report, found]

theorem report_nil : env.report children root [] = (env.evaluateFields children root []).map .object :=
  rfl

/-- Fields are evaluated as the report has them. -/
theorem evaluateFields_eq {fields : PlanChildren} {parent : Value} {path : ResponsePath}
    (places : ∀ entry ∈ fields, entry.2.isIncluded env.bindings = true →
      env.placeAt children root (path ++ [.field entry.2.responseKey]) =
        some (env.fieldPlace entry.2 parent path)) :
    env.evaluateFields fields parent path =
      Evaluation.fieldsAt (env.report children root) path (env.heads fields) := by
  induction fields with
  | nil => rfl
  | cons entry rest ih =>
      have others := ih fun other member => places other (List.mem_cons_of_mem _ member)
      rcases entry with ⟨key, node⟩
      rw [evaluateFields]
      cases included : node.isIncluded env.bindings with
      | false => simpa [heads, included] using others
      | true =>
          have place := places (key, node) List.mem_cons_self included
          simp only [if_true, evaluateField_eq, ← report_eq place, others]
          simp [heads, included, Evaluation.fieldsAt]

/-- Items are evaluated as the report has them. -/
theorem evaluateItems_eq {evaluate : Value → ResponsePath → Evaluation Json} {nullable : Bool}
    {path : ResponsePath} {start : Nat} {items : List Value}
    (each : ∀ position value, items[position]? = some value →
      evaluate value (path ++ [.index (start + position)]) =
        env.report children root (path ++ [.index (start + position)])) :
    evaluateItems evaluate nullable path start items =
      Evaluation.itemsAt (env.report children root) nullable path start items.length := by
  induction items generalizing start with
  | nil => rfl
  | cons first rest ih =>
      have others : evaluateItems evaluate nullable path (start + 1) rest =
          Evaluation.itemsAt (env.report children root) nullable path (start + 1) rest.length := by
        apply ih
        intro position value found
        have later := each (position + 1) value found
        rwa [← Nat.add_assoc, Nat.add_right_comm] at later
      have head := each 0 first rfl
      rw [Nat.add_zero] at head
      simp only [evaluateItems, List.length_cons, Evaluation.itemsAt, others, head]

end

end PureEnvironment

end GraphQL

import GraphQL.Proofs.Execution.Settling
import GraphQL.Proofs.Execution.Sight
import GraphQL.Proofs.Execution.Trace

/-!
# The shape of response trees

What an execution has asked for and recorded so far is evidence for the tree it has made so far.
Every part of the tree has the form of its declared type; leaves are values that were produced at
their paths, a null has a cause, and what waits has a task. Putting what has the form of its type at
a place that waits keeps the form of the tree, also when it is a failure that goes up.
-/

namespace GraphQL

variable {Object : Type}

theorem ResponseTree.keys_of_heads {fields : List (String × Bool × ResponseTree)}
    {children : List PlanNode} (same : heads fields = children.map PlanNode.head) :
    OrderedMap.keys fields = children.map PlanNode.responseKey := by
  have keys := congrArg (List.map Prod.fst) same
  simpa [heads, OrderedMap.keys, Function.comp_def, PlanNode.head] using keys

/-- The object types that a value of a composite type can have. -/
def Schema.Concretes (schema : Schema) (type : SchemaType) (objectType : String) : Prop :=
  if type.isObject then objectType = type.name else objectType ∈ schema.possibleTypes type.name

/-! ## Evidence -/

/-- A value came to stand at a path: a field was resolved or a task forced with it, or it is an item
of a list that came to stand there. -/
inductive Produced (trace : List (Occurrence Object)) :
    ResponsePath → ResolvedValue Object → Prop where
  | resolved {node : PlanNode} {path : ResponsePath} {value : ResolvedValue Object}
      (occurs : .resolved { node, path, answer := .ok value } ∈ trace) : Produced trace path value
  | forced {task : Task Object} {value : ResolvedValue Object}
      (occurs : .forced task (.ok value) ∈ trace) : Produced trace task.path value
  | item {path : ResponsePath} {list value : ResolvedValue Object}
      {items : List (ResolvedValue Object)} {position : Nat} (outer : Produced trace path list)
      (isList : list.items? = some items) (found : items[position]? = some value) :
      Produced trace (path ++ [.index position]) value

/-- A path leads to a field that was resolved, or into a list there; the field and the declared type
at the path. -/
inductive Position (trace : List (Occurrence Object)) :
    ResponsePath → PlanNode → TypeRef → Prop where
  | field {node : PlanNode} {path : ResponsePath}
      {answer : Except ExecutionError (ResolvedValue Object)}
      (occurs : .resolved { node, path, answer } ∈ trace) : Position trace path node node.returnType
  | item {path : ResponsePath} {node : PlanNode} {type item : TypeRef}
      (outer : Position trace path node type) (isList : type.core = .list item) (position : Nat) :
      Position trace (path ++ [.index position]) node item

/-- A path is the root or a position. -/
def IsReached (trace : List (Occurrence Object)) (path : ResponsePath) : Prop :=
  path = [] ∨ ∃ node type, Position trace path node type

/-- What an execution of an operation has come to. -/
structure Evidence (Object : Type) where
  schema : Schema
  bindings : Variables
  trace : List (Occurrence Object)
  errors : List FieldError
  tasks : List (Task Object)

namespace Evidence

/-- More has happened; the tasks can be others. -/
structure Extends (known later : Evidence Object) : Prop where
  schema : known.schema = later.schema
  bindings : known.bindings = later.bindings
  trace : known.trace ⊆ later.trace
  errors : known.errors ⊆ later.errors

end Evidence

theorem Produced.mono {trace later : List (Occurrence Object)} {path : ResponsePath}
    {value : ResolvedValue Object} (produced : Produced trace path value) (more : trace ⊆ later) :
    Produced later path value := by
  induction produced with
  | resolved occurs => exact .resolved (more occurs)
  | forced occurs => exact .forced (more occurs)
  | item _ isList found ih => exact .item ih isList found

theorem Position.mono {trace later : List (Occurrence Object)} {path : ResponsePath}
    {node : PlanNode} {type : TypeRef} (position : Position trace path node type)
    (more : trace ⊆ later) : Position later path node type := by
  induction position with
  | field occurs => exact .field (more occurs)
  | item _ isList position ih => exact .item ih isList position

theorem Position.isReached {trace : List (Occurrence Object)} {path : ResponsePath}
    {node : PlanNode} {type : TypeRef} (position : Position trace path node type) :
    IsReached trace path :=
  .inr ⟨node, type, position⟩

theorem IsReached.mono {trace later : List (Occurrence Object)} {path : ResponsePath}
    (reached : IsReached trace path) (more : trace ⊆ later) : IsReached later path := by
  rcases reached with isRoot | ⟨node, type, position⟩
  · exact .inl isRoot
  · exact (position.mono more).isReached

/-- A field has a position because it was resolved. -/
theorem Position.exists_resolved {trace : List (Occurrence Object)} {path : ResponsePath}
    {key : String} {node : PlanNode} {type : TypeRef}
    (position : Position trace (path ++ [.field key]) node type) :
    ∃ answer, .resolved { node, path := path ++ [.field key], answer } ∈ trace := by
  generalize same : path ++ [PathSegment.field key] = whole at position
  cases position with
  | field occurs => exact ⟨_, occurs⟩
  | item outer isList position =>
      have last := congrArg List.getLast? same
      simp at last

namespace Evidence

variable {known later : Evidence Object} {path : ResponsePath}

/-- An error was recorded at or below a path, and everything below the path on the way to the error
cannot be null. -/
def FailsBelow (known : Evidence Object) (path : ResponsePath) : Prop :=
  ∃ error ∈ known.errors, ∃ rest, error.path = some (path ++ rest) ∧
    ∀ front, front <+: rest → front ≠ [] →
      ∃ node type, Position known.trace (path ++ front) node type ∧ type.isNonNull = true

theorem FailsBelow.here {error : FieldError} (recorded : error ∈ known.errors)
    (isHere : error.path = some path) : known.FailsBelow path := by
  refine ⟨error, recorded, [], by rw [isHere, List.append_nil], ?_⟩
  intro front isFront isBelow
  exact absurd (List.prefix_nil.mp isFront) isBelow

theorem FailsBelow.mono (fails : known.FailsBelow path) (more : known.Extends later) :
    later.FailsBelow path := by
  rcases fails with ⟨error, recorded, rest, isHere, strict⟩
  refine ⟨error, more.errors recorded, rest, isHere, ?_⟩
  intro front isFront isBelow
  rcases strict front isFront isBelow with ⟨node, type, position, isNonNull⟩
  exact ⟨node, type, position.mono more.trace, isNonNull⟩

/-- A failure at a place that cannot be null is one of the place around it. -/
theorem FailsBelow.up {segment : PathSegment} {node : PlanNode} {type : TypeRef}
    (fails : known.FailsBelow (path ++ [segment]))
    (position : Position known.trace (path ++ [segment]) node type)
    (strict : type.isNonNull = true) : known.FailsBelow path := by
  rcases fails with ⟨error, recorded, rest, isHere, below⟩
  refine ⟨error, recorded, segment :: rest, by rw [isHere]; simp, ?_⟩
  intro front isFront isBelow
  rcases front with _ | ⟨first, front⟩
  · exact absurd rfl isBelow
  · rcases List.cons_prefix_cons.mp isFront with ⟨rfl, inside⟩
    by_cases isHere : front = []
    · subst isHere
      exact ⟨node, type, position, strict⟩
    · have found := below front inside isHere
      rwa [List.append_assoc] at found

/-- Why a null stands at a path: it was produced there, or something failed. -/
def Nulls (known : Evidence Object) (path : ResponsePath) : Prop :=
  (∃ value, Produced known.trace path value ∧ value.isNull = true) ∨ known.FailsBelow path

theorem Nulls.mono (nulls : known.Nulls path) (more : known.Extends later) : later.Nulls path := by
  rcases nulls with ⟨value, produced, isNull⟩ | fails
  · exact .inl ⟨value, produced.mono more.trace, isNull⟩
  · exact .inr (fails.mono more)

end Evidence

/-! ## Shapes -/

/-- A tree has the form of a type, as the type of a field at a path. -/
inductive Shaped (known : Evidence Object) :
    PlanNode → TypeRef → ResponsePath → ResponseTree → Prop where
  | waiting {node : PlanNode} {type : TypeRef} {path : ResponsePath}
      (awaited : ∃ task ∈ known.tasks, task.path = path ∧ task.node = node ∧ task.type = type) :
      Shaped known node type path .waiting
  | null {node : PlanNode} {type : TypeRef} {path : ResponsePath}
      (nullable : type.isNonNull = false) (cause : known.Nulls path) :
      Shaped known node type path .null
  | leaf {node : PlanNode} {type : TypeRef} {path : ResponsePath} {name : String}
      {found : SchemaType} {value : Json} (isNamed : type.core = .named name)
      (isFound : known.schema.type? name = some found) (isLeaf : found.isLeaf = true)
      (notNull : value.isNull = false) (produced : Produced known.trace path (.json value)) :
      Shaped known node type path (.leaf value)
  | list {node : PlanNode} {type item : TypeRef} {path : ResponsePath}
      {items : List ResponseTree} (isList : type.core = .list item)
      (each : ∀ position tree, items[position]? = some tree →
        Shaped known node item (path ++ [.index position]) tree) :
      Shaped known node type path (.list (!item.isNonNull) items)
  | object {node : PlanNode} {type : TypeRef} {path : ResponsePath} {name objectType : String}
      {found : SchemaType} {children : List PlanNode}
      {fields : List (String × Bool × ResponseTree)} (isNamed : type.core = .named name)
      (isFound : known.schema.type? name = some found) (isComposite : found.isComposite = true)
      (concrete : known.schema.Concretes found objectType)
      (selected : (childrenOf node.typedChildren objectType).included known.bindings = children)
      (heads : ResponseTree.heads fields = children.map PlanNode.head)
      (distinct : (OrderedMap.keys fields).Nodup)
      (resolved : ∀ child ∈ children, ∃ answer, .resolved
        { node := child, path := path ++ [.field child.responseKey], answer } ∈ known.trace)
      (each : ∀ child ∈ children, ∀ tree,
        (child.responseKey, !child.returnType.isNonNull, tree) ∈ fields →
          Shaped known child child.returnType (path ++ [.field child.responseKey]) tree) :
      Shaped known node type path (.object fields)

/-- The fields of an object are those of some nodes, and have their form. -/
structure Evidence.HasFields (known : Evidence Object) (path : ResponsePath)
    (children : List PlanNode) (fields : List (String × Bool × ResponseTree)) : Prop where
  heads : ResponseTree.heads fields = children.map PlanNode.head
  distinct : (OrderedMap.keys fields).Nodup
  resolved : ∀ child ∈ children, ∃ answer, .resolved
    { node := child, path := path ++ [.field child.responseKey], answer } ∈ known.trace
  each : ∀ child ∈ children, ∀ tree,
    (child.responseKey, !child.returnType.isNonNull, tree) ∈ fields →
      Shaped known child child.returnType (path ++ [.field child.responseKey]) tree

/-- What was made for a place has the form of its type, or it is a failure with an error. -/
def Evidence.Fits (known : Evidence Object) (node : PlanNode) (type : TypeRef)
    (path : ResponsePath) : Option ResponseTree → Prop
  | some tree => Shaped known node type path tree
  | none => known.FailsBelow path

section

variable {known later : Evidence Object} {node : PlanNode} {type : TypeRef} {path : ResponsePath}
  {tree : ResponseTree}

/-- More can have happened, and only the tasks of places that wait matter. -/
theorem Shaped.mono (shaped : Shaped known node type path tree) (more : known.Extends later)
    (tasks : ∀ task ∈ known.tasks, ∀ rest, task.path = path ++ rest →
      tree.sight rest = .waiting → task ∈ later.tasks) : Shaped later node type path tree := by
  induction shaped with
  | waiting awaited =>
      rcases awaited with ⟨task, member, rfl, same⟩
      exact .waiting ⟨task, tasks task member [] (List.append_nil _).symm rfl, rfl, same⟩
  | null nullable cause => exact .null nullable (cause.mono more)
  | leaf isNamed isFound isLeaf notNull produced =>
      exact .leaf isNamed (more.schema ▸ isFound) isLeaf notNull (produced.mono more.trace)
  | @list node type item path items isList each ih =>
      refine .list isList ?_
      intro position tree found
      apply ih position tree found
      intro task member rest same isWaiting
      apply tasks task member (.index position :: rest) (by rw [same]; simp)
      rwa [ResponseTree.sight_item found]
  | @object node type path name objectType found children fields isNamed isFound isComposite concrete
      selected heads distinct resolved each ih =>
      refine .object isNamed (more.schema ▸ isFound) isComposite (more.schema ▸ concrete)
        (more.bindings ▸ selected) heads distinct ?_ ?_
      · intro child member
        rcases resolved child member with ⟨answer, occurs⟩
        exact ⟨answer, more.trace occurs⟩
      · intro child member tree field
        apply ih child member tree field
        intro task taskMem rest same isWaiting
        apply tasks task taskMem (.field child.responseKey :: rest) (by rw [same]; simp)
        rwa [ResponseTree.sight_field distinct field]

theorem Evidence.HasFields.mono {children : List PlanNode}
    {fields : List (String × Bool × ResponseTree)} (has : known.HasFields path children fields)
    (more : known.Extends later)
    (tasks : ∀ task ∈ known.tasks, ∀ rest, task.path = path ++ rest →
      (ResponseTree.object fields).sight rest = .waiting → task ∈ later.tasks) :
    later.HasFields path children fields := by
  refine ⟨has.heads, has.distinct, ?_, ?_⟩
  · intro child member
    rcases has.resolved child member with ⟨answer, occurs⟩
    exact ⟨answer, more.trace occurs⟩
  · intro child member tree field
    refine (has.each child member tree field).mono more ?_
    intro task taskMem rest same isWaiting
    apply tasks task taskMem (.field child.responseKey :: rest) (by rw [same]; simp)
    rwa [ResponseTree.sight_field has.distinct field]

/-- More tasks do not matter. -/
theorem Evidence.Fits.mono {made : Option ResponseTree} (fits : known.Fits node type path made)
    (more : known.Extends later) (tasks : known.tasks ⊆ later.tasks) :
    later.Fits node type path made := by
  cases made with
  | none => exact Evidence.FailsBelow.mono fits more
  | some tree => exact Shaped.mono fits more fun task member _ _ _ => tasks member

/-- The form of a part that can be null if its type can. -/
theorem Evidence.Fits.filled {made : Option ResponseTree} (fits : known.Fits node type path made)
    {new : ResponseTree} (isFilled : ResponseTree.filled (!type.isNonNull) made = some new) :
    Shaped known node type path new := by
  cases made with
  | some tree =>
      cases isFilled
      exact fits
  | none =>
      cases strict : type.isNonNull with
      | true =>
          rw [strict] at isFilled
          cases isFilled
      | false =>
          rw [strict] at isFilled
          cases isFilled
          exact .null strict (.inr fits)

theorem Evidence.Fits.fails {made : Option ResponseTree} {segment : PathSegment}
    (fits : known.Fits node type (path ++ [segment]) made)
    (position : Position known.trace (path ++ [segment]) node type)
    (isFilled : ResponseTree.filled (!type.isNonNull) made = none) : known.FailsBelow path := by
  cases made with
  | some tree => cases isFilled
  | none =>
      cases strict : type.isNonNull with
      | true => exact Evidence.FailsBelow.up fits position strict
      | false =>
          rw [strict] at isFilled
          cases isFilled

theorem Evidence.HasFields.position {children : List PlanNode}
    {fields : List (String × Bool × ResponseTree)} (has : known.HasFields path children fields)
    {child : PlanNode} (member : child ∈ children) :
    Position known.trace (path ++ [.field child.responseKey]) child child.returnType := by
  rcases has.resolved child member with ⟨answer, occurs⟩
  exact .field occurs

/-- Every field belongs to a node. -/
theorem Evidence.HasFields.exists_child {children : List PlanNode}
    {fields : List (String × Bool × ResponseTree)} (has : known.HasFields path children fields)
    {key : String} {nullable : Bool} {value : ResponseTree}
    (field : (key, nullable, value) ∈ fields) :
    ∃ child ∈ children, child.responseKey = key ∧ (!child.returnType.isNonNull) = nullable := by
  have head : (key, nullable) ∈ children.map PlanNode.head := by
    rw [← has.heads]
    exact List.mem_map_of_mem (f := fun field : String × Bool × ResponseTree =>
      (field.1, field.2.1)) field
  rcases List.mem_map.mp head with ⟨child, member, same⟩
  exact ⟨child, member, congrArg Prod.fst same, congrArg Prod.snd same⟩

/-- A part of an object directly below it. -/
theorem Evidence.HasFields.branch {children : List PlanNode}
    {fields : List (String × Bool × ResponseTree)} {segment : PathSegment} {nullable : Bool}
    {branch : ResponseTree} (has : known.HasFields path children fields)
    (found : (ResponseTree.object fields).branch? segment = some (nullable, branch)) :
    ∃ node type, Position known.trace (path ++ [segment]) node type ∧
      Shaped known node type (path ++ [segment]) branch := by
  cases segment with
  | index position => cases found
  | field key =>
      have field := OrderedMap.mem_of_find? found
      rcases has.exists_child field with ⟨child, member, rfl, rfl⟩
      exact ⟨child, child.returnType, has.position member, has.each child member branch field⟩

/-- A part of a tree directly below it. -/
theorem Shaped.branch {segment : PathSegment} {nullable : Bool} {branch : ResponseTree}
    (shaped : Shaped known node type path tree) (position : Position known.trace path node type)
    (found : tree.branch? segment = some (nullable, branch)) :
    ∃ node type, Position known.trace (path ++ [segment]) node type ∧
      Shaped known node type (path ++ [segment]) branch := by
  cases shaped with
  | list isList each =>
      cases segment with
      | field key => cases found
      | index index =>
          rcases Option.map_eq_some_iff.mp found with ⟨tree, isItem, same⟩
          cases same
          exact ⟨_, _, position.item isList index, each index branch isItem⟩
  | object isNamed isFound isComposite concrete selected heads distinct resolved each =>
      have has : known.HasFields path _ _ := ⟨heads, distinct, resolved, each⟩
      exact has.branch found
  | _ => cases found

/-- Where no task waits, nothing is open. -/
theorem Shaped.sight_ne_waiting {rest : ResponsePath} (shaped : Shaped known node type path tree)
    (position : Position known.trace path node type) (settled : known.tasks = []) :
    tree.sight rest ≠ .waiting := by
  intro isWaiting
  induction rest generalizing node type path tree with
  | nil =>
      cases shaped with
      | waiting awaited =>
          rcases awaited with ⟨task, member, _⟩
          rw [settled] at member
          cases member
      | _ => cases isWaiting
  | cons segment rest ih =>
      rcases ResponseTree.exists_branch_of_waiting isWaiting with ⟨nullable, branch, found, waits⟩
      rcases shaped.branch position found with ⟨inner, innerType, innerPosition, innerShaped⟩
      exact ih innerShaped innerPosition waits

/-- What was made for an object has the fields of some nodes, or it is a failure with an error. -/
def Evidence.FitsObject (known : Evidence Object) (path : ResponsePath) (children : List PlanNode) :
    Option ResponseTree → Prop
  | some tree => ∃ fields, tree = .object fields ∧ known.HasFields path children fields
  | none => known.FailsBelow path

theorem Evidence.FitsObject.fits {name objectType : String} {found : SchemaType}
    {made : Option ResponseTree} (isNamed : type.core = .named name)
    (isFound : known.schema.type? name = some found) (isComposite : found.isComposite = true)
    (concrete : known.schema.Concretes found objectType)
    (fits : known.FitsObject path
      ((childrenOf node.typedChildren objectType).included known.bindings) made) :
    known.Fits node type path made := by
  cases made with
  | none => exact fits
  | some tree =>
      rcases fits with ⟨fields, rfl, has⟩
      exact .object isNamed isFound isComposite concrete rfl has.heads has.distinct has.resolved
        has.each

/-! ## Results at places -/

/-- What is below one part of an object or list is not below another one. -/
theorem not_prefix_of_sibling {path rest further whole : ResponsePath}
    {segment other : PathSegment} (different : segment ≠ other)
    (isBelow : whole = path ++ [other] ++ further) : ¬path ++ segment :: rest <+: whole := by
  rintro ⟨last, isAt⟩
  rw [isBelow, List.append_assoc, List.append_assoc] at isAt
  exact Agrees.ne_of_sibling different isAt

/-- Replacing the value of a field, or a failure there. -/
theorem Evidence.HasFields.place_cons {children : List PlanNode}
    {fields : List (String × Bool × ResponseTree)} {segment : PathSegment} {rest : ResponsePath}
    {nullable : Bool} {branch : ResponseTree} {made : Option ResponseTree}
    (has : known.HasFields path children fields) (more : known.Extends later)
    (found : (ResponseTree.object fields).branch? segment = some (nullable, branch))
    (tasks : ∀ task ∈ known.tasks, ¬path ++ segment :: rest <+: task.path → task ∈ later.tasks)
    (fits : ∀ child, Position known.trace (path ++ [segment]) child child.returnType →
      Shaped known child child.returnType (path ++ [segment]) branch →
        later.Fits child child.returnType (path ++ [segment]) (branch.place rest made)) :
    later.FitsObject path children ((ResponseTree.object fields).place (segment :: rest) made) := by
  rw [ResponseTree.place_of_branch? found]
  rcases segment with key | index
  · have isField : OrderedMap.find? fields key = some (nullable, branch) := found
    have field := OrderedMap.mem_of_find? isField
    cases isFilled : ResponseTree.filled nullable (branch.place rest made) with
    | none =>
        rcases has.exists_child field with ⟨child, member, rfl, rfl⟩
        have position := has.position member
        exact (fits child position (has.each child member branch field)).fails
          (position.mono more.trace) isFilled
    | some new =>
        have inserted := OrderedMap.nodup_keys_insert has.distinct key (nullable, new)
        simp only [Option.map_some, ResponseTree.withBranch, isField]
        refine ⟨_, rfl, (Agrees.heads_insert isField new).trans has.heads, inserted, ?_, ?_⟩
        · intro child member
          rcases has.resolved child member with ⟨answer, occurs⟩
          exact ⟨answer, more.trace occurs⟩
        · intro child member tree isInserted
          rcases OrderedMap.eq_or_mem_of_mem_insert has.distinct isInserted with
            ⟨rfl, equal⟩ | ⟨different, before⟩
          · cases equal
            exact (fits child (has.position member) (has.each child member branch field)).filled
              isFilled
          · refine (has.each child member tree before).mono more ?_
            intro task taskMem further isBelow _
            exact tasks task taskMem (not_prefix_of_sibling
              (fun equal => different (PathSegment.field.inj equal).symm) isBelow)
  · cases found

/-- Replacing an item of a list, or a failure there. -/
theorem Shaped.place_item {item : TypeRef} {items : List ResponseTree} {index : Nat}
    {rest : ResponsePath} {branch : ResponseTree} {made : Option ResponseTree}
    (isList : type.core = .list item)
    (each : ∀ position tree, items[position]? = some tree →
      Shaped known node item (path ++ [.index position]) tree)
    (position : Position known.trace path node type) (more : known.Extends later)
    (found : items[index]? = some branch)
    (tasks : ∀ task ∈ known.tasks, ¬path ++ .index index :: rest <+: task.path →
      task ∈ later.tasks)
    (fits : later.Fits node item (path ++ [.index index]) (branch.place rest made)) :
    later.Fits node type path
      ((ResponseTree.list (!item.isNonNull) items).place (.index index :: rest) made) := by
  have isBranch : (ResponseTree.list (!item.isNonNull) items).branch? (.index index) =
      some (!item.isNonNull, branch) := by
    simp only [ResponseTree.branch?, found, Option.map_some]
  rw [ResponseTree.place_of_branch? isBranch]
  cases isFilled : ResponseTree.filled (!item.isNonNull) (branch.place rest made) with
  | none => exact fits.fails ((position.item isList index).mono more.trace) isFilled
  | some new =>
      refine .list isList ?_
      intro other tree isOther
      rw [List.getElem?_set] at isOther
      split at isOther
      · rename_i isSame
        subst isSame
        rw [if_pos (List.getElem?_eq_some_iff.mp found).1] at isOther
        cases isOther
        exact fits.filled isFilled
      · rename_i different
        -- A task below another item is not one below this item, so it is still there.
        refine (each other tree isOther).mono more ?_
        intro task taskMem further isBelow _
        exact tasks task taskMem (not_prefix_of_sibling
          (fun equal => different (PathSegment.index.inj equal)) isBelow)

/-- Placing what has the form of its type where the tree waits for it. -/
theorem Shaped.place {made : Option ResponseTree} {rest : ResponsePath}
    (shaped : Shaped known node type path tree) (position : Position known.trace path node type)
    (isWaiting : tree.sight rest = .waiting) (more : known.Extends later)
    (tasks : ∀ task ∈ known.tasks, ¬path ++ rest <+: task.path → task ∈ later.tasks)
    (fits : ∀ task ∈ known.tasks, task.path = path ++ rest →
      later.Fits task.node task.type (path ++ rest) made) :
    later.Fits node type path (tree.place rest made) := by
  induction rest generalizing node type path tree with
  | nil =>
      rw [ResponseTree.place_nil]
      rw [List.append_nil] at fits
      cases shaped with
      | waiting awaited =>
          rcases awaited with ⟨task, member, isHere, rfl, rfl⟩
          exact fits task member isHere
      | _ => cases isWaiting
  | cons segment rest ih =>
      rcases ResponseTree.exists_branch_of_waiting isWaiting with ⟨nullable, branch, found, waits⟩
      cases shaped with
      | @list _ _ item _ items isList each =>
          cases segment with
          | field key => cases found
          | index index =>
              rcases Option.map_eq_some_iff.mp found with ⟨tree, isItem, same⟩
              cases same
              refine Shaped.place_item isList each position more isItem tasks ?_
              exact ih (each index branch isItem) (position.item isList index) waits
                (by simpa using tasks) (by simpa using fits)
      | object isNamed isFound isComposite concrete selected heads distinct resolved each =>
          subst selected
          have has : known.HasFields path _ _ := ⟨heads, distinct, resolved, each⟩
          have placed := has.place_cons more found tasks fun child inner shaped =>
            ih shaped inner waits (by simpa using tasks) (by simpa using fits)
          rw [more.bindings] at placed
          exact placed.fits isNamed (more.schema ▸ isFound) isComposite (more.schema ▸ concrete)
      | _ => cases found

/-- The fields of an object in which something is placed. -/
theorem Evidence.HasFields.place {children : List PlanNode}
    {fields : List (String × Bool × ResponseTree)} {made : Option ResponseTree}
    {rest : ResponsePath} (has : known.HasFields path children fields)
    (isWaiting : (ResponseTree.object fields).sight rest = .waiting) (more : known.Extends later)
    (tasks : ∀ task ∈ known.tasks, ¬path ++ rest <+: task.path → task ∈ later.tasks)
    (fits : ∀ task ∈ known.tasks, task.path = path ++ rest →
      later.Fits task.node task.type (path ++ rest) made) :
    later.FitsObject path children ((ResponseTree.object fields).place rest made) := by
  cases rest with
  | nil => cases isWaiting
  | cons segment rest =>
      rcases ResponseTree.exists_branch_of_waiting isWaiting with ⟨nullable, branch, found, waits⟩
      exact has.place_cons more found tasks fun child inner shaped =>
        shaped.place inner waits more (by simpa using tasks) (by simpa using fits)

end

/-! ## The root -/

/-- The data of an execution are an object with the fields of some nodes, or a null for a failure. -/
inductive Evidence.HasRoot (known : Evidence Object) (children : List PlanNode) :
    ResponseTree → Prop where
  | object {fields : List (String × Bool × ResponseTree)} (has : known.HasFields [] children fields) :
      HasRoot known children (.object fields)
  | null (fails : known.FailsBelow []) : HasRoot known children .null

namespace Evidence

variable {known later : Evidence Object} {children : List PlanNode} {tree : ResponseTree}
  {made : Option ResponseTree}

theorem FitsObject.hasRoot (fits : known.FitsObject [] children made) :
    known.HasRoot children (made.getD .null) := by
  cases made with
  | none => exact .null fits
  | some tree =>
      rcases fits with ⟨fields, rfl, has⟩
      exact .object has

theorem HasRoot.mono (root : known.HasRoot children tree) (more : known.Extends later)
    (tasks : ∀ task ∈ known.tasks, tree.sight task.path = .waiting → task ∈ later.tasks) :
    later.HasRoot children tree := by
  cases root with
  | null fails => exact .null (fails.mono more)
  | object has =>
      refine .object (has.mono more ?_)
      rintro task member rest same isWaiting
      rw [List.nil_append] at same
      exact tasks task member (same ▸ isWaiting)

theorem HasRoot.sight_ne_waiting (root : known.HasRoot children tree) (settled : known.tasks = [])
    (path : ResponsePath) : tree.sight path ≠ .waiting := by
  cases root with
  | null fails =>
      rw [ResponseTree.sight_null]
      exact fun same => Sight.noConfusion same
  | object has =>
      intro isWaiting
      cases path with
      | nil => cases isWaiting
      | cons segment rest =>
          rcases ResponseTree.exists_branch_of_waiting isWaiting with ⟨_, branch, found, waits⟩
          rcases has.branch found with ⟨node, type, position, shaped⟩
          exact shaped.sight_ne_waiting position settled waits

theorem HasRoot.place {place : ResponsePath} (root : known.HasRoot children tree)
    (isWaiting : tree.sight place = .waiting) (more : known.Extends later)
    (tasks : ∀ task ∈ known.tasks, ¬place <+: task.path → task ∈ later.tasks)
    (fits : ∀ task ∈ known.tasks, task.path = place →
      later.Fits task.node task.type place made) :
    later.HasRoot children ((tree.place place made).getD .null) := by
  cases root with
  | null fails =>
      rw [ResponseTree.sight_null] at isWaiting
      cases isWaiting
  | object has => exact (has.place isWaiting more tasks fits).hasRoot

end Evidence

end GraphQL

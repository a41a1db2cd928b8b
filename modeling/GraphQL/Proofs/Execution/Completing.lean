import GraphQL.Execution.Settling
import GraphQL.Proofs.Execution.Simulation

/-!
# Completing values at their places

Every function that completes a value advances at the place of that value. What is done at items and
fields is known before the list or the object around them is looked at, so the proofs follow the
type of a value, and the nodes of a plan from the leaves to the root.
-/

namespace GraphQL

variable {σ Object Value : Type} {env : Environment σ Object} {pure : PureEnvironment Value}
  {represents : σ → ResolvedValue Object → Value → Prop} {top : PlanChildren} {root : Value}

/-! ## Forced values -/

/-- A value of a field that needs no forcing stands at a path. The type can have fewer marks that
forbid null than the place has. -/
structure Stands (pure : PureEnvironment Value) (top : PlanChildren) (root : Value)
    (node : PlanNode) (type : TypeRef) (plain : Value) (path : ResponsePath) : Prop where
  place : ∃ place, pure.placeAt top root path = some place ∧ place.node = node ∧
    place.type.core = type.core ∧ ∃ value, place.outcome = .ok value ∧ pure.force value = .ok plain
  reports : pure.report top root path =
    pure.completeWith node (pure.evaluateTyped node.typedChildren) type plain path

namespace Stands

variable {node : PlanNode} {type : TypeRef} {plain : Value} {path : ResponsePath}

theorem of_place {value : Value}
    (place : pure.placeAt top root path = some { node, type, outcome := .ok value })
    (forced : pure.force value = .ok plain) : Stands pure top root node type plain path where
  place := ⟨_, place, rfl, rfl, value, rfl, forced⟩
  reports := by
    rw [PureEnvironment.report_eq place]
    simp only [PureEnvironment.evaluatePlace, PureEnvironment.forced, forced]

theorem item (stands : Stands pure top root node type plain path) {inner : TypeRef}
    (isList : type.core = .list inner) {items : List Value} (isItems : pure.items? plain = some items)
    {position : Nat} {value : Value} (found : items[position]? = some value) :
    pure.placeAt top root (path ++ [.index position]) =
      some { node, type := inner, outcome := .ok value } := by
  rcases stands.place with ⟨place, atPath, sameNode, sameCore, outcome, isOutcome, forced⟩
  rw [PureEnvironment.placeAt_append atPath]
  simp [PureEnvironment.inner?, isOutcome, forced, sameCore, isList, isItems, found, sameNode,
    Except.toOption]

theorem field (stands : Stands pure top root node type plain path) {name : String}
    (isNamed : type.core = .named name) {found : SchemaType}
    (isFound : pure.schema.type? name = some found) {objectType : String}
    (isObject : pure.objectType? found plain = some objectType) (key : String) :
    pure.placeAt top root (path ++ [.field key]) =
      pure.fieldPlace? (childrenOf node.typedChildren objectType) plain path key := by
  rcases stands.place with ⟨place, atPath, sameNode, sameCore, outcome, isOutcome, forced⟩
  rw [PureEnvironment.placeAt_append atPath]
  simp [PureEnvironment.inner?, isOutcome, forced, sameCore, isNamed, isFound, isObject, sameNode,
    Except.toOption]

end Stands

/-! ## Named types -/

theorem Simulates.objectType? (simulates : Simulates env pure represents) (type : SchemaType)
    {value : ResolvedValue Object} {plain : Value} {before : Progress σ Object}
    (represented : represents before.outside value plain) :
    ∃ outside, Keeps represents before.outside outside ∧
      env.objectType? type value before =
        (pure.objectType? type plain, { before with outside }) := by
  by_cases isObject : type.isObject = true
  · refine ⟨before.outside, .refl _, ?_⟩
    simp only [Environment.objectType?, PureEnvironment.objectType?, isObject, if_true]
    rfl
  · rcases asked : env.typeOf type.name value before.outside with ⟨name?, outside⟩
    rcases simulates.typeOf represented type.name with ⟨keeps, same⟩
    rw [asked] at keeps same
    refine ⟨outside, keeps, ?_⟩
    simp only [Environment.objectType?, PureEnvironment.objectType?, isObject, if_false, ← same,
      simulates.schema, Bool.false_eq_true]
    simp only [Run.ask, bind, StateT.bind, asked]
    cases name? with
    | some name => rfl
    | none => rcases pure.schema.possibleTypes type.name with _ | ⟨only, _ | ⟨other, rest⟩⟩ <;> rfl

theorem completeNamed_advances (simulates : Simulates env pure represents) {node : PlanNode}
    {fields : String → ResolvedValue Object → ResponsePath → Run σ Object (Option ResponseTree)}
    {plainFields : String → Value → ResponsePath → Evaluation Json} {type : TypeRef} {name : String}
    {value : ResolvedValue Object} {plain : Value} {path : ResponsePath} {limit : Nat}
    {before : Progress σ Object} (represented : represents before.outside value plain)
    (reports : pure.report top root path =
      pure.completeNamed node plainFields type name plain path)
    (inside : ∀ found objectType (later : Progress σ Object), pure.schema.type? name = some found →
      pure.objectType? found plain = some objectType → represents later.outside value plain →
      pure.report top root path = plainFields objectType plain path →
      Advances represents pure top root path limit later (fields objectType value path later)) :
    Advances represents pure top root path limit before
      (env.completeNamed node fields type name value path before) := by
  simp only [Environment.completeNamed, PureEnvironment.completeNamed, simulates.schema]
    at reports ⊢
  cases isFound : pure.schema.type? name with
  | none =>
      rw [isFound] at reports
      exact .fail reports
  | some found =>
      rw [isFound] at reports
      simp only at reports ⊢
      by_cases isLeaf : found.isLeaf = true
      · rw [if_pos isLeaf, ← simulates.json? represented] at reports
        rw [if_pos isLeaf]
        cases value with
        | json value => exact .result fun nullable => .leaf reports
        | null => exact .fail reports
        | list items => exact .fail reports
        | object object => exact .fail reports
        | pending cell => exact .fail reports
        | deferred cell => exact .fail reports
      · rw [if_neg isLeaf] at reports ⊢
        by_cases isComposite : found.isComposite = true
        · rw [if_pos isComposite] at reports ⊢
          rcases simulates.objectType? found represented with ⟨outside, keeps, same⟩
          simp only [bind, StateT.bind, same]
          cases isObject : pure.objectType? found plain with
          | none =>
              rw [isObject] at reports
              exact .after keeps (.fail reports)
          | some objectType =>
              rw [isObject] at reports
              exact .after keeps
                (inside found objectType _ isFound isObject (keeps _ _ represented) reports)
        · rw [if_neg isComposite] at reports ⊢
          exact .fail reports

/-! ## Lists -/

theorem completeItems_advances
    {complete : ResolvedValue Object → ResponsePath → Run σ Object (Option ResponseTree)}
    {nullable : Bool} {path : ResponsePath} {limit start : Nat} {values : List (ResolvedValue Object)}
    {plains : List Value} {before : Progress σ Object}
    (represented : List.Forall₂ (represents before.outside) values plains)
    (each : ∀ position value plain (later : Progress σ Object), plains[position]? = some plain →
      represents later.outside value plain →
      Advances represents pure top root (path ++ [.index (start + position)]) limit later
        (complete value (path ++ [.index (start + position)]) later)) :
    AdvanceAll represents pure top root path
      ((List.range' start values.length).map fun position => (.index position, nullable)) limit before
      (Environment.completeItems complete nullable path start values before) := by
  induction values generalizing plains start before with
  | nil => exact .nil
  | cons value values ih =>
      rcases List.forall₂_cons_left_iff.mp represented with ⟨plain, plains, first, others, rfl⟩
      have head := each 0 value plain before rfl first
      rw [Nat.add_zero] at head
      rcases completed : complete value (path ++ [.index start]) before with ⟨made, after⟩
      rw [completed] at head
      rw [List.length_cons, List.range'_succ, List.map_cons]
      simp only [Environment.completeItems, bind, StateT.bind, completed]
      cases filled : ResponseTree.filled nullable made with
      | none => exact .stop head filled
      | some tree =>
          have later : List.Forall₂ (represents after.outside) values plains :=
            others.imp fun value plain => head.keeps value plain
          have rest := ih later fun position value plain later found => by
            have step := each (position + 1) value plain later found
            rwa [← Nat.add_assoc, Nat.add_right_comm] at step
          exact .cons head filled rest

/-! ## Values of any type -/

theorem Advances.postpone {task : Task Object} {plain : Value} {limit : Nat}
    {before : Progress σ Object}
    (pending : task.IsPending represents pure top root before.outside plain)
    (bound : task.height ≤ limit) :
    Advances represents pure top root task.path limit before (Run.postpone task before) := by
  refine ⟨[task], [], ⟨.refl _, rfl, (List.append_nil _).symm⟩, ?_, List.nil_subset _,
    fun nullable => .waiting ⟨task, List.mem_singleton_self _, rfl⟩⟩
  intro other member
  cases List.mem_singleton.mp member
  exact ⟨⟨plain, pending⟩, bound, fun error => id⟩

/-- The fields of the objects that a field can have are executed as the report has them. -/
def FieldsAdvance (represents : σ → ResolvedValue Object → Value → Prop)
    (pure : PureEnvironment Value) (top : PlanChildren) (root : Value)
    (typedChildren : List (String × List (String × PlanNode)))
    (fields : String → ResolvedValue Object → ResponsePath → Run σ Object (Option ResponseTree))
    (limit : Nat) : Prop :=
  ∀ {objectType value plain path} {before : Progress σ Object},
    represents before.outside value plain →
    (∀ key, pure.placeAt top root (path ++ [.field key]) =
      pure.fieldPlace? (childrenOf typedChildren objectType) plain path key) →
    pure.report top root path = pure.evaluateTyped typedChildren objectType plain path →
    Advances represents pure top root path limit before (fields objectType value path before)

section

variable {node : PlanNode}
  {fields : String → ResolvedValue Object → ResponsePath → Run σ Object (Option ResponseTree)}
  {limit : Nat}

/-- A lazy value waits; any other one stands where it is. -/
theorem completeWith_advances_of_place (simulates : Simulates env pure represents) {type : TypeRef}
    (bound : 1 + type.listDepth + PlanNode.typedPlaces node.typedChildren ≤ limit)
    (keyed : ∀ typed ∈ node.typedChildren, PlanChildren.IsKeyed typed.2)
    (eager : ∀ value plain path (before : Progress σ Object),
      represents before.outside value plain → env.isLazy value = false →
      Stands pure top root node type plain path →
      Advances represents pure top root path limit before
        (env.completeWith node fields type value path before))
    {value : ResolvedValue Object} {plain : Value} {path : ResponsePath}
    {before : Progress σ Object} (represented : represents before.outside value plain)
    (place : pure.placeAt top root path = some { node, type, outcome := .ok plain }) :
    Advances represents pure top root path limit before
      (env.completeWith node fields type value path before) := by
  cases isLazy : env.isLazy value with
  | true =>
      unfold Environment.completeWith
      rw [if_pos isLazy]
      exact .postpone ⟨represented, place, keyed⟩ bound
  | false =>
      exact eager _ _ _ _ represented isLazy (.of_place place (simulates.eager represented isLazy))

theorem completeList_advances (simulates : Simulates env pure represents) {type item : TypeRef}
    (isList : type.core = .list item)
    (each : ∀ value plain path (before : Progress σ Object), represents before.outside value plain →
      pure.placeAt top root path = some { node, type := item, outcome := .ok plain } →
      Advances represents pure top root path limit before
        (env.completeWith node fields item value path before))
    {value : ResolvedValue Object} {plain : Value} {path : ResponsePath}
    {before : Progress σ Object} (represented : represents before.outside value plain)
    (stands : Stands pure top root node type plain path)
    (reports : pure.report top root path =
      match pure.items? plain with
      | none => .fail node path (.invalidValue node.ownerType node.name type)
      | some items =>
          (PureEnvironment.evaluateItems (pure.forced node
            (pure.completeWith node (pure.evaluateTyped node.typedChildren) item))
            (!item.isNonNull) path 0 items).map .array) :
    Advances represents pure top root path limit before
      ((match value.items? with
        | none => Run.fail node path (.invalidValue node.ownerType node.name type)
        | some items => do
            let completed ← Environment.completeItems (env.completeWith node fields item)
              (!item.isNonNull) path 0 items
            return completed.map (ResponseTree.list (!item.isNonNull)) : Run σ Object (Option ResponseTree))
        before) := by
  have related := simulates.items? represented
  cases isItems : value.items? with
  | none =>
      rw [isItems] at related
      cases isPlains : pure.items? plain with
      | some plains => rw [isPlains] at related; cases related
      | none =>
          rw [isPlains] at reports
          exact .fail reports
  | some items =>
      rw [isItems] at related
      cases isPlains : pure.items? plain with
      | none => rw [isPlains] at related; cases related
      | some plains =>
          rw [isPlains] at related reports
          cases related with
          | some all =>
              have places : ∀ position inner, plains[position]? = some inner →
                  pure.placeAt top root (path ++ [.index position]) =
                    some { node, type := item, outcome := .ok inner } := fun position inner =>
                stands.item isList isPlains
              refine AdvanceAll.list (completeItems_advances all ?_) ?_
              · intro position value inner later found represented
                rw [Nat.zero_add]
                exact each _ _ _ _ represented (places position inner found)
              · simp only at reports
                rw [reports, all.length_eq, PureEnvironment.evaluateItems_eq]
                intro position inner found
                rw [Nat.zero_add, PureEnvironment.report_eq (places position inner found)]
                rfl

/-- Completing a value of a type that is not lazy. -/
theorem completeWith_advances_of_stands (simulates : Simulates env pure represents)
    (keyed : ∀ typed ∈ node.typedChildren, PlanChildren.IsKeyed typed.2)
    (inside : FieldsAdvance represents pure top root node.typedChildren fields limit) :
    ∀ (type : TypeRef) (value : ResolvedValue Object) (plain : Value) (path : ResponsePath)
      (before : Progress σ Object),
      type.listDepth + PlanNode.typedPlaces node.typedChildren ≤ limit →
      represents before.outside value plain → env.isLazy value = false →
      Stands pure top root node type plain path →
      Advances represents pure top root path limit before
        (env.completeWith node fields type value path before) := by
  intro type value plain path before bound represented isEager stands
  have reports := stands.reports
  unfold PureEnvironment.completeWith at reports
  unfold Environment.completeWith
  rw [if_neg (by simp [isEager])]
  rw [← simulates.isNull represented] at reports
  by_cases isNull : value.isNull = true
  · rw [if_pos isNull] at reports ⊢
    by_cases isNonNull : type.isNonNull = true
    · rw [if_pos isNonNull] at reports ⊢
      exact .fail reports
    · rw [if_neg isNonNull] at reports ⊢
      refine .result fun nullable => .null ?_ fun _ => ?_
      · rw [reports]
        rfl
      · rw [reports]
  · rw [if_neg isNull] at reports ⊢
    have named : ∀ name, type.core = .named name →
        pure.report top root path = pure.completeNamed node
          (pure.evaluateTyped node.typedChildren) type name plain path →
        Advances represents pure top root path limit before
          (env.completeNamed node fields type name value path before) := by
      intro name isNamed reports
      refine completeNamed_advances simulates represented reports ?_
      intro found objectType later isFound isObject still reports
      exact inside still (stands.field isNamed isFound isObject) reports
    match type with
    | .nonNull (.nonNull inner) =>
        exact completeWith_advances_of_stands simulates keyed inside inner _ _ _ _ bound represented
          isEager
          ⟨stands.place, reports⟩
    | .named name => exact named name rfl reports
    | .nonNull (.named name) => exact named name rfl reports
    | .list item | .nonNull (.list item) =>
        refine completeList_advances simulates rfl ?_ represented stands reports
        have fewer : 1 + item.listDepth + PlanNode.typedPlaces node.typedChildren ≤ limit := by
          simp only [TypeRef.listDepth] at bound
          omega
        intro value plain path later represented place
        refine completeWith_advances_of_place simulates fewer keyed ?_ represented place
        intro value plain path later
        exact completeWith_advances_of_stands simulates keyed inside item _ _ _ _ (by omega)

end

/-! ## Fields -/

theorem PlanNode.childrenPlaces_le {typedChildren : List (String × List (String × PlanNode))}
    {typed : String × List (String × PlanNode)} (member : typed ∈ typedChildren) :
    childrenPlaces typed.2 ≤ typedPlaces typedChildren := by
  induction typedChildren with
  | nil => cases member
  | cons first rest ih =>
      rw [typedPlaces]
      rcases List.mem_cons.mp member with rfl | member
      · exact Nat.le_max_left _ _
      · exact Nat.le_trans (ih member) (Nat.le_max_right _ _)

theorem PlanNode.places_le {children : List (String × PlanNode)} {entry : String × PlanNode}
    (member : entry ∈ children) : places entry.2 ≤ childrenPlaces children := by
  induction children with
  | nil => cases member
  | cons first rest ih =>
      rw [childrenPlaces]
      rcases List.mem_cons.mp member with rfl | member
      · exact Nat.le_max_left _ _
      · exact Nat.le_trans (ih member) (Nat.le_max_right _ _)

theorem PlanNode.places_eq (node : PlanNode) :
    places node = 1 + node.returnType.listDepth + typedPlaces node.typedChildren := by
  cases node
  rw [places]

theorem executeField_of_ok {node : PlanNode} {parent value : ResolvedValue Object}
    {path : ResponsePath} {before : Progress σ Object} {outside : σ}
    (asked : env.resolve node parent path before.outside = (.ok value, outside)) :
    env.executeField node parent path before =
      env.complete node node.returnType value path { before with outside } := by
  rcases node
  simp only [Environment.executeField, bind, StateT.bind, Run.ask, asked]
  rfl

theorem executeField_of_error {node : PlanNode} {parent : ResolvedValue Object}
    {path : ResponsePath} {before : Progress σ Object} {error : ExecutionError} {outside : σ}
    (asked : env.resolve node parent path before.outside = (.error error, outside)) :
    env.executeField node parent path before = Run.fail node path error { before with outside } := by
  rcases node
  simp only [Environment.executeField, bind, StateT.bind, Run.ask, asked]

theorem executeField_advances (simulates : Simulates env pure represents) {node : PlanNode}
    {limit : Nat} (bound : PlanNode.places node ≤ limit)
    (keyed : ∀ typed ∈ node.typedChildren, PlanChildren.IsKeyed typed.2)
    (inside : FieldsAdvance represents pure top root node.typedChildren
      (env.executeTyped node.typedChildren) limit)
    {parent : ResolvedValue Object} {plain : Value} {path : ResponsePath}
    {before : Progress σ Object} (represented : represents before.outside parent plain)
    (place : pure.placeAt top root path =
      some { node, type := node.returnType, outcome := pure.resolve node plain path }) :
    Advances represents pure top root path limit before
      (env.executeField node parent path before) := by
  rw [PlanNode.places_eq] at bound
  rcases asked : env.resolve node parent path before.outside with ⟨answer, outside⟩
  rcases simulates.resolve represented node path with ⟨keeps, answered⟩
  rw [asked] at keeps answered
  cases resolved : pure.resolve node plain path with
  | error error =>
      rw [resolved] at answered place
      cases answer with
      | ok value => cases answered
      | error other =>
          cases answered
          rw [executeField_of_error asked]
          refine .after keeps (.fail ?_)
          rw [PureEnvironment.report_eq place]
          rfl
  | ok found =>
      rw [resolved] at answered place
      cases answer with
      | error other => cases answered
      | ok value =>
          have represented : represents outside value found := answered
          rw [executeField_of_ok asked]
          apply Advances.after keeps
          refine completeWith_advances_of_place simulates bound keyed ?_ represented place
          intro value plain path later
          exact completeWith_advances_of_stands simulates keyed inside _ _ _ _ _ (by omega)

/-- The included fields of an object are executed as the report has them. -/
def ChildrenAdvance (represents : σ → ResolvedValue Object → Value → Prop)
    (env : Environment σ Object) (pure : PureEnvironment Value) (top : PlanChildren) (root : Value)
    (children : PlanChildren) (limit : Nat) : Prop :=
  ∀ {value : ResolvedValue Object} {plain : Value} {path : ResponsePath}
    {before : Progress σ Object}, represents before.outside value plain →
    (∀ entry ∈ children, entry.2.isIncluded pure.bindings = true →
      pure.placeAt top root (path ++ [.field entry.2.responseKey]) =
        some (pure.fieldPlace entry.2 plain path)) →
    AdvanceAll represents pure top root path
      ((pure.heads children).map fun head => (.field head.1, head.2)) limit before
      ((env.executeFields children value path before).1.map (List.map fun field => field.2.2),
        (env.executeFields children value path before).2)

theorem executeFields_cons (key : String) (node : PlanNode) (rest : PlanChildren)
    (value : ResolvedValue Object) (path : ResponsePath) (before : Progress σ Object) :
    env.executeFields ((key, node) :: rest) value path before =
      if node.isIncluded env.bindings then
        let first := env.executeField node value (path ++ [.field node.responseKey]) before
        match ResponseTree.filled (!node.returnType.isNonNull) first.1 with
        | none => (none, first.2)
        | some tree =>
            let others := env.executeFields rest value path first.2
            (others.1.map ((node.responseKey, !node.returnType.isNonNull, tree) :: ·), others.2)
      else env.executeFields rest value path before := by
  rw [Environment.executeFields]
  by_cases included : node.isIncluded env.bindings = true
  · rw [if_pos included, if_pos included]
    simp only [bind, StateT.bind]
    rcases executed : env.executeField node value (path ++ [.field node.responseKey]) before
      with ⟨made, after⟩
    simp only [executed]
    cases ResponseTree.filled (!node.returnType.isNonNull) made <;> rfl
  · rw [if_neg included, if_neg included]

/-- What is executed for an object has the heads of the included fields. -/
theorem executeFields_some_heads {children : PlanChildren} {value : ResolvedValue Object}
    {path : ResponsePath} {before : Progress σ Object}
    {fields : List (String × Bool × ResponseTree)}
    (made : (env.executeFields children value path before).1 = some fields) :
    fields.map (fun field => (field.1, field.2.1)) =
      (children.included env.bindings).map PlanNode.head := by
  induction children generalizing before fields with
  | nil =>
      cases made
      rfl
  | cons entry rest ih =>
      rcases entry with ⟨key, node⟩
      rw [executeFields_cons] at made
      rw [PlanChildren.included_cons]
      cases included : node.isIncluded env.bindings with
      | true =>
          simp only [included, if_true] at made ⊢
          split at made
          · cases made
          · rcases Option.map_eq_some_iff.mp made with ⟨others, remaining, rfl⟩
            have names := ih remaining
            simp [names, PlanNode.head]
      | false =>
          simp only [included, Bool.false_eq_true, if_false] at made ⊢
          exact ih made

theorem executeFields_heads (simulates : Simulates env pure represents) {children : PlanChildren}
    {value : ResolvedValue Object} {path : ResponsePath} {before : Progress σ Object}
    {fields : List (String × Bool × ResponseTree)}
    (made : (env.executeFields children value path before).1 = some fields) :
    fields.map (fun field => (field.1, field.2.1)) = pure.heads children := by
  rw [PureEnvironment.heads_eq, ← simulates.bindings]
  exact executeFields_some_heads made

/-- Executing fields advances if executing each of them does. -/
theorem childrenAdvance_of_nodes (simulates : Simulates env pure represents)
    {children : PlanChildren} {limit : Nat}
    (each : ∀ entry ∈ children, ∀ parent plain path (before : Progress σ Object),
      represents before.outside parent plain →
      pure.placeAt top root path = some { node := entry.2, type := entry.2.returnType
                                          outcome := pure.resolve entry.2 plain path } →
      Advances represents pure top root path limit before
        (env.executeField entry.2 parent path before)) :
    ChildrenAdvance represents env pure top root children limit := by
  intro value plain path before represented places
  induction children generalizing before with
  | nil => exact .nil
  | cons entry rest ih =>
      rcases entry with ⟨key, node⟩
      have others : ∀ {later : Progress σ Object}, represents later.outside value plain →
          AdvanceAll represents pure top root path
            ((pure.heads rest).map fun head => (.field head.1, head.2)) limit later
            ((env.executeFields rest value path later).1.map (List.map fun field => field.2.2),
              (env.executeFields rest value path later).2) := by
        intro later still
        apply ih (fun entry member => each entry (List.mem_cons_of_mem _ member)) still
        exact fun entry member => places entry (List.mem_cons_of_mem _ member)
      rw [executeFields_cons, simulates.bindings]
      cases included : node.isIncluded pure.bindings with
      | false =>
          have without : pure.heads ((key, node) :: rest) = pure.heads rest := by
            simp [PureEnvironment.heads, included]
          rw [without]
          exact others represented
      | true =>
          have heads : pure.heads ((key, node) :: rest) =
              (node.responseKey, !node.returnType.isNonNull) :: pure.heads rest := by
            simp [PureEnvironment.heads, included]
          have first := each (key, node) List.mem_cons_self _ _ _ _ represented
            (places (key, node) List.mem_cons_self included)
          rw [heads, List.map_cons, if_pos rfl]
          simp only at first ⊢
          rcases executed : env.executeField node value (path ++ [.field node.responseKey]) before
            with ⟨made, after⟩
          rw [executed] at first
          simp only [executed]
          cases filled : ResponseTree.filled (!node.returnType.isNonNull) made with
          | none => exact .stop first filled
          | some tree =>
              have further := AdvanceAll.cons first filled
                (others (first.keeps _ _ represented))
              rw [Option.map_map] at further ⊢
              exact further

theorem executeTyped_advances (simulates : Simulates env pure represents)
    {typedChildren : List (String × List (String × PlanNode))} {limit : Nat}
    (keyed : ∀ typed ∈ typedChildren, PlanChildren.IsKeyed typed.2)
    (inside : ∀ typed ∈ typedChildren,
      ChildrenAdvance represents env pure top root typed.2 limit) :
    FieldsAdvance represents pure top root typedChildren (env.executeTyped typedChildren) limit := by
  intro objectType value plain path before represented places reports
  induction typedChildren with
  | nil =>
      refine .result fun nullable => .object List.nodup_nil ?_ ?_
      · exact reports
      · intro key inner tree member
        cases member
  | cons typed rest ih =>
      rcases typed with ⟨name, children⟩
      rw [Environment.executeTyped]
      rw [PureEnvironment.evaluateTyped] at reports
      simp only [childrenOf, OrderedMap.find?_cons] at places
      by_cases same : name = objectType
      · simp only [if_pos same] at reports places ⊢
        rcases keyed (name, children) List.mem_cons_self with ⟨distinct, _⟩
        have standing : ∀ entry ∈ children, entry.2.isIncluded pure.bindings = true →
            pure.placeAt top root (path ++ [.field entry.2.responseKey]) =
              some (pure.fieldPlace entry.2 plain path) := by
          rintro ⟨key, node⟩ member included
          rw [places]
          exact PureEnvironment.fieldPlace?_of_mem distinct member included plain path
        refine AdvanceAll.object (inside _ List.mem_cons_self represented standing)
          (fun fields => executeFields_heads simulates) (PureEnvironment.nodup_heads distinct) ?_
        rw [reports, PureEnvironment.evaluateFields_eq standing]
      · simp only [if_neg same] at reports places ⊢
        exact ih (fun typed member => keyed typed (List.mem_cons_of_mem _ member))
          (fun typed member => inside typed (List.mem_cons_of_mem _ member)) places reports

/-- Executing the fields of an object advances at every field. -/
theorem executeFields_advances (simulates : Simulates env pure represents)
    {children : PlanChildren} (keyed : children.IsKeyed) {limit : Nat}
    (bound : PlanNode.childrenPlaces children ≤ limit) :
    ChildrenAdvance represents env pure top root children limit := by
  induction keyed generalizing limit with
  | @intro children distinct inner ih =>
      apply childrenAdvance_of_nodes simulates
      intro entry member parent plain path before represented place
      have fewer : PlanNode.places entry.2 ≤ limit :=
        Nat.le_trans (PlanNode.places_le member) bound
      refine executeField_advances simulates fewer (inner entry member) ?_ represented place
      apply executeTyped_advances simulates (inner entry member)
      intro typed typedMem
      apply ih entry member typed typedMem
      have below := PlanNode.childrenPlaces_le typedMem
      rw [PlanNode.places_eq] at fewer
      omega

theorem executeTyped_advances_of_keyed (simulates : Simulates env pure represents)
    {typedChildren : List (String × List (String × PlanNode))} {limit : Nat}
    (keyed : ∀ typed ∈ typedChildren, PlanChildren.IsKeyed typed.2)
    (bound : PlanNode.typedPlaces typedChildren ≤ limit) :
    FieldsAdvance represents pure top root typedChildren (env.executeTyped typedChildren) limit := by
  apply executeTyped_advances simulates keyed
  intro typed member
  exact executeFields_advances simulates (keyed typed member)
    (Nat.le_trans (PlanNode.childrenPlaces_le member) bound)

end GraphQL

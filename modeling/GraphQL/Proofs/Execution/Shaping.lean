import GraphQL.Proofs.Execution.Making

/-!
# Shaping values

Completing a value of a type makes something of the form of that type, for every type and for the
nodes of a plan from the leaves to the root.
-/

namespace GraphQL

variable {σ Object : Type} {env : Environment σ Object} {origin : List (Occurrence Object)}
  {limit : Nat} {path : ResponsePath} {before : Progress (Record σ Object) Object}
  {fits : Evidence Object → Option ResponseTree → Prop}

/-- A step makes something that fits at a path, where no call is made but below. -/
def Completes (env : Environment σ Object) (origin : List (Occurrence Object)) (limit : Nat)
    (path : ResponsePath) (fits : Evidence Object → Option ResponseTree → Prop)
    (before : Progress (Record σ Object) Object)
    (step : Option ResponseTree × Progress (Record σ Object) Object) : Prop :=
  ∃ yield : Yield Object,
    yield.Makes env origin limit path fits before step ∧ path ∉ yield.paths .call

/-! ## Single steps -/

theorem Completes.result {tree : ResponseTree} (holds : fits (env.evidence [] before) (some tree)) :
    Completes env origin limit path fits before (some tree, before) := by
  refine ⟨{}, ⟨.refl _, ⟨⟨by simp, by simp⟩, by simp⟩, ?_, holds⟩, by simp [Yield.paths]⟩
  intro mark
  cases mark <;> exact .nil

theorem ExecutionError.recorded_path (error : ExecutionError) (node : PlanNode)
    (path : ResponsePath) : (error.recorded node path).path = some path := by
  unfold recorded FieldError.withLocations
  split <;> rfl

theorem Completes.fail {node : PlanNode} {error : ExecutionError}
    (reached : IsReached before.outside.trace path)
    (holds : ∀ known : Evidence Object, known.FailsBelow path → fits known none) :
    Completes env origin limit path fits before (Run.fail node path error before) := by
  have isHere := error.recorded_path node path
  refine ⟨{ errors := [error.recorded node path] },
    ⟨⟨(List.append_nil _).symm, rfl, (List.append_nil _).symm⟩, ⟨⟨by simp, ?_⟩, by simp⟩, ?_, ?_⟩,
    by simp [Yield.paths]⟩
  · intro recorded member
    cases List.mem_singleton.mp member
    exact ⟨path, reached, isHere⟩
  · intro mark
    cases mark with
    | error =>
        simp only [Yield.paths, List.map_cons, List.map_nil, isHere, Option.getD_some]
        exact .cons .nil (List.not_mem_nil) rfl
    | call => exact .nil
    | task => exact .nil
  · apply holds
    exact .here (List.mem_append_right _ (List.mem_singleton_self _)) isHere

theorem Completes.postpone {node : PlanNode} {type : TypeRef} {value : ResolvedValue Object}
    (isLazy : env.isLazy value = true) (produced : Produced origin path value)
    (position : Position before.outside.trace path node type)
    (keyed : ∀ typed ∈ node.typedChildren, PlanChildren.IsKeyed typed.2)
    (bound : 1 + type.listDepth + PlanNode.typedPlaces node.typedChildren ≤ limit) :
    Completes env origin limit path (fun known made => known.Fits node type path made) before
      (Run.postpone { path, node, type, value } before) := by
  refine ⟨{ tasks := [{ path, node, type, value }] },
    ⟨⟨(List.append_nil _).symm, (List.append_nil _).symm, rfl⟩, ⟨⟨by simp, by simp⟩, ?_⟩, ?_, ?_⟩,
    by simp [Yield.paths]⟩
  · intro task member
    cases List.mem_singleton.mp member
    refine ⟨isLazy, ?_, position, keyed, bound⟩
    exact produced.mono (List.subset_append_left _ _)
  · intro mark
    cases mark with
    | task => exact .cons .nil (List.not_mem_nil) (.inr rfl)
    | call => exact .nil
    | error => exact .nil
  · exact .waiting ⟨_, List.mem_singleton_self _, rfl, rfl, rfl⟩

theorem Completes.imp {others : Evidence Object → Option ResponseTree → Prop}
    {earlier : List (Occurrence Object)}
    {step : Option ResponseTree × Progress (Record σ Object) Object}
    (completes : Completes env earlier limit path fits before step) (less : earlier ⊆ origin)
    (implies : ∀ tasks, fits (env.evidence tasks step.2) step.1 →
      others (env.evidence tasks step.2) step.1) :
    Completes env origin limit path others before step := by
  rcases completes with ⟨yield, makes, below⟩
  refine ⟨yield, ⟨makes.leads, ⟨makes.sound.placed, ?_⟩, makes.scattered, implies _ makes.fits⟩,
    below⟩
  intro task member
  refine (makes.sound.tasks task member).mono ?_ (List.Subset.refl _)
  intro occurrence found
  exact (List.mem_append.mp found).elim (fun found => List.mem_append_left _ (less found))
    (List.mem_append_right _)

/-- Asking before a step leaves no mark. -/
theorem Completes.after {outside : Record σ Object}
    {step : Option ResponseTree × Progress (Record σ Object) Object}
    (silent : outside.trace = before.outside.trace)
    (completes : Completes env origin limit path fits { before with outside } step) :
    Completes env origin limit path fits before step := by
  rcases completes with ⟨yield, makes, below⟩
  have leads := makes.leads
  exact ⟨yield, ⟨⟨silent ▸ leads.trace, leads.errors, leads.queue⟩, makes.sound, makes.scattered,
    makes.fits⟩, below⟩

theorem Yield.MakesAll.completesList {yield : Yield Object} {node : PlanNode} {item : TypeRef}
    {count : Nat} {step : Option (List ResponseTree) × Progress (Record σ Object) Object}
    (makes : yield.MakesAll env origin limit path
      ((List.range' 0 count).map fun position => (.index position, node, item)) before step)
    {declared : TypeRef} (isList : declared.core = .list item) :
    Completes env origin limit path (fun known made => known.Fits node declared path made) before
      (step.1.map (.list (!item.isNonNull)), step.2) :=
  ⟨yield, makes.list isList, (makes.scattered .call).not_mem⟩

/-! ## Named types -/

/-- The object type of a value is one that its declared type allows; finding it asks no more than for
the name of a type. -/
theorem objectType?_concrete (env : Environment σ Object) (type : SchemaType)
    (value : ResolvedValue Object) (before : Progress σ Object) :
    ∃ objectType? outside, env.objectType? type value before =
        (objectType?, { before with outside }) ∧
      (outside = before.outside ∨ outside = (env.typeOf type.name value before.outside).2) ∧
      ∀ objectType, objectType? = some objectType → env.schema.Concretes type objectType := by
  by_cases isObject : type.isObject = true
  · refine ⟨some type.name, before.outside, ?_, .inl rfl, ?_⟩
    · simp only [Environment.objectType?, isObject, if_true]
      rfl
    · intro objectType same
      cases same
      rw [Schema.Concretes, if_pos isObject]
  · rcases asked : env.typeOf type.name value before.outside with ⟨name?, outside⟩
    have possible : ∀ objectType ∈ env.schema.possibleTypes type.name,
        env.schema.Concretes type objectType := by
      intro objectType member
      rw [Schema.Concretes, if_neg isObject]
      exact member
    simp only [Environment.objectType?, isObject, if_false, Bool.false_eq_true]
    simp only [Run.ask, bind, StateT.bind, asked]
    cases name? with
    | some name =>
        refine ⟨_, outside, rfl, .inr rfl, ?_⟩
        intro objectType same
        by_cases contained : (env.schema.possibleTypes type.name).contains name = true
        · rw [if_pos contained] at same
          cases same
          exact possible name (List.contains_iff_mem.mp contained)
        · rw [if_neg contained] at same
          cases same
    | none =>
        rcases known : env.schema.possibleTypes type.name with _ | ⟨only, _ | ⟨other, rest⟩⟩
        · exact ⟨none, outside, rfl, .inr rfl, by simp⟩
        · refine ⟨some only, outside, rfl, .inr rfl, ?_⟩
          intro objectType same
          cases same
          exact possible only (known ▸ List.mem_singleton_self _)
        · exact ⟨none, outside, rfl, .inr rfl, by simp⟩

/-- The fields of the objects that a field can have are made in the form of their nodes. -/
def FieldsComplete (env : Environment σ Object)
    (typedChildren : List (String × List (String × PlanNode)))
    (fields : String → ResolvedValue Object → ResponsePath →
      Run (Record σ Object) Object (Option ResponseTree)) (limit : Nat) : Prop :=
  ∀ objectType value path (before : Progress (Record σ Object) Object),
    IsReached before.outside.trace path →
    Completes env [] limit path (fun known made => known.FitsObject path
        ((childrenOf typedChildren objectType).included env.bindings) made) before
      (fields objectType value path before)

section

variable {node : PlanNode}
  {fields : String → ResolvedValue Object → ResponsePath →
    Run (Record σ Object) Object (Option ResponseTree)}

theorem completeNamed_completes {type declared : TypeRef} {name : String}
    (isNamed : declared.core = .named name)
    (inside : FieldsComplete env node.typedChildren fields limit) {value : ResolvedValue Object}
    (notNull : value.isNull = false) (produced : Produced origin path value)
    (earlier : origin ⊆ before.outside.trace) (reached : IsReached before.outside.trace path) :
    Completes env origin limit path (fun known made => known.Fits node declared path made) before
      (env.recorded.completeNamed node fields type name value path before) := by
  have failed : ∀ error (later : Progress (Record σ Object) Object),
      IsReached later.outside.trace path →
      Completes env origin limit path (fun known made => known.Fits node declared path made) later
        (Run.fail node path error later) :=
    fun error later reached => .fail reached fun known fails => fails
  unfold Environment.completeNamed
  cases isFound : env.recorded.schema.type? name with
  | none => exact failed _ _ reached
  | some found =>
      simp only
      by_cases isLeaf : found.isLeaf = true
      · rw [if_pos isLeaf]
        cases value with
        | json value =>
            exact .result (.leaf isNamed isFound isLeaf notNull (produced.mono earlier))
        | _ => exact failed _ _ reached
      · rw [if_neg isLeaf]
        by_cases isComposite : found.isComposite = true
        · rw [if_pos isComposite]
          rcases objectType?_concrete env.recorded found value before with
            ⟨objectType?, outside, same, asked, concrete⟩
          have silent : outside.trace = before.outside.trace := by
            rcases asked with rfl | rfl <;> rfl
          simp only [bind, StateT.bind, same]
          have still : IsReached outside.trace path := silent ▸ reached
          cases objectType? with
          | none => exact (failed _ _ still).after silent
          | some objectType =>
              refine Completes.after silent ((inside objectType value path _ still).imp
                (List.nil_subset _) ?_)
              intro tasks fits
              exact fits.fits isNamed isFound isComposite (concrete objectType rfl)
        · rw [if_neg isComposite]
          exact failed _ _ reached

/-! ## Values of any type -/

theorem completeItems_makesAll
    {complete : ResolvedValue Object → ResponsePath →
      Run (Record σ Object) Object (Option ResponseTree)}
    {item declared : TypeRef} (isList : declared.core = .list item) {start : Nat}
    {values : List (ResolvedValue Object)}
    (position : Position before.outside.trace path node declared)
    (earlier : origin ⊆ before.outside.trace)
    (each : ∀ (index : Nat) value (later : Progress (Record σ Object) Object),
      values[index]? = some value → origin ⊆ later.outside.trace →
      Position later.outside.trace (path ++ [.index (start + index)]) node item →
      Completes env origin limit (path ++ [.index (start + index)])
        (fun known made => known.Fits node item (path ++ [.index (start + index)]) made) later
        (complete value (path ++ [.index (start + index)]) later)) :
    ∃ yield : Yield Object, yield.MakesAll env origin limit path
      ((List.range' start values.length).map fun index => (.index index, node, item)) before
      (Environment.completeItems complete (!item.isNonNull) path start values before) := by
  induction values generalizing start before with
  | nil => exact ⟨{}, .nil⟩
  | cons value values ih =>
      have head := each 0 value before rfl earlier (position.item isList _)
      rw [Nat.add_zero] at head
      rcases completed : complete value (path ++ [.index start]) before with ⟨made, after⟩
      rw [completed] at head
      rcases head with ⟨yield, makes, _⟩
      have since : before.outside.trace ⊆ after.outside.trace := makes.leads.subset
      rw [List.length_cons, List.range'_succ, List.map_cons]
      simp only [Environment.completeItems, bind, StateT.bind, completed]
      cases isFilled : ResponseTree.filled (!item.isNonNull) made with
      | none => exact ⟨yield, .stop makes ((position.mono since).item isList _) isFilled⟩
      | some tree =>
          have still := List.Subset.trans earlier since
          rcases @ih after (start + 1) (position.mono since) still fun index value later found => by
              have step := each (index + 1) value later found
              rwa [← Nat.add_assoc, Nat.add_right_comm] at step
            with ⟨others, rest⟩
          refine ⟨yield ++ others, .cons ?_ makes ((position.mono since).item isList _) isFilled rest⟩
          intro member
          rw [List.map_map] at member
          rcases List.mem_map.mp member with ⟨index, isIndex, same⟩
          cases same
          exact Nat.lt_irrefl _ (List.mem_range'_1.mp isIndex).1

/-- A lazy value waits; any other one is made at once. -/
theorem completeWith_completes_of_eager {type : TypeRef}
    (keyed : ∀ typed ∈ node.typedChildren, PlanChildren.IsKeyed typed.2)
    (bound : 1 + type.listDepth + PlanNode.typedPlaces node.typedChildren ≤ limit)
    {value : ResolvedValue Object} (produced : Produced origin path value)
    (position : Position before.outside.trace path node type)
    (eager : env.isLazy value = false →
      Completes env origin limit path (fun known made => known.Fits node type path made) before
        (env.recorded.completeWith node fields type value path before)) :
    Completes env origin limit path (fun known made => known.Fits node type path made) before
      (env.recorded.completeWith node fields type value path before) := by
  cases isLazy : env.isLazy value with
  | true =>
      unfold Environment.completeWith
      rw [if_pos (show env.recorded.isLazy value = true from isLazy)]
      exact .postpone isLazy produced position keyed bound
  | false => exact eager isLazy

/-- Completing the items of a value of a list type. -/
theorem completeList_completes
    (keyed : ∀ typed ∈ node.typedChildren, PlanChildren.IsKeyed typed.2)
    {type declared item : TypeRef} (isList : declared.core = .list item)
    (bound : 1 + item.listDepth + PlanNode.typedPlaces node.typedChildren ≤ limit)
    {value : ResolvedValue Object} (produced : Produced origin path value)
    (position : Position before.outside.trace path node declared)
    (earlier : origin ⊆ before.outside.trace)
    (each : ∀ value path (later : Progress (Record σ Object) Object),
      env.isLazy value = false → Produced origin path value → origin ⊆ later.outside.trace → Position later.outside.trace path node item →
      Completes env origin limit path (fun known made => known.Fits node item path made) later
        (env.recorded.completeWith node fields item value path later)) :
    Completes env origin limit path (fun known made => known.Fits node declared path made) before
      ((match value.items? with
        | none => Run.fail node path (.invalidValue node.ownerType node.name type)
        | some items => do
            let completed ← Environment.completeItems (env.recorded.completeWith node fields item)
              (!item.isNonNull) path 0 items
            return completed.map (ResponseTree.list (!item.isNonNull)) :
              Run (Record σ Object) Object (Option ResponseTree)) before) := by
  cases isItems : value.items? with
  | none => exact .fail position.isReached fun known fails => fails
  | some items =>
      have inside : ∃ yield : Yield Object, yield.MakesAll env origin limit path
          ((List.range' 0 items.length).map fun index => (.index index, node, item)) before
          (Environment.completeItems (env.recorded.completeWith node fields item) (!item.isNonNull)
            path 0 items before) := by
        refine completeItems_makesAll isList position earlier ?_
        intro index value later found since inner
        rw [Nat.zero_add] at inner ⊢
        have stands := produced.item isItems found
        refine completeWith_completes_of_eager keyed bound stands inner fun isEager => ?_
        exact each _ _ _ isEager stands since inner
      rcases inside with ⟨yield, makes⟩
      exact makes.completesList isList

/-- Completing a value that is not lazy. The type can have fewer marks that forbid null than the
declared type. -/
theorem completeWith_completes
    (keyed : ∀ typed ∈ node.typedChildren, PlanChildren.IsKeyed typed.2)
    (inside : FieldsComplete env node.typedChildren fields limit) :
    ∀ (type declared : TypeRef) (value : ResolvedValue Object) (path : ResponsePath)
      (before : Progress (Record σ Object) Object),
      type.listDepth + PlanNode.typedPlaces node.typedChildren ≤ limit →
      env.isLazy value = false → declared.core = type.core →
      (value.isNull = true → declared = type) → Produced origin path value →
      origin ⊆ before.outside.trace → Position before.outside.trace path node declared →
      Completes env origin limit path (fun known made => known.Fits node declared path made) before
        (env.recorded.completeWith node fields type value path before) := by
  intro type declared value path before bound isEager sameCore whole produced earlier position
  unfold Environment.completeWith
  rw [if_neg (show ¬env.recorded.isLazy value = true by simp [Environment.recorded, isEager])]
  cases isNull : value.isNull with
  | true =>
      cases whole isNull
      rw [if_pos rfl]
      cases isNonNull : type.isNonNull with
      | true =>
          rw [if_pos rfl]
          exact .fail position.isReached fun known fails => fails
      | false =>
          rw [if_neg Bool.false_ne_true]
          exact .result (.null isNonNull (.inl ⟨value, produced.mono earlier, isNull⟩))
  | false =>
      rw [if_neg Bool.false_ne_true]
      cases type with
      | named name =>
          exact completeNamed_completes sameCore inside isNull produced earlier position.isReached
      | list item =>
          rw [TypeRef.listDepth] at bound
          refine completeList_completes keyed sameCore (by omega) produced position earlier ?_
          intro value path later isEager produced earlier position
          exact completeWith_completes keyed inside item item value path later (by omega) isEager rfl
            (fun _ => rfl) produced earlier position
      | nonNull inner =>
          cases inner with
          | named name =>
              exact completeNamed_completes sameCore inside isNull produced earlier
                position.isReached
          | list item =>
              rw [TypeRef.listDepth, TypeRef.listDepth] at bound
              refine completeList_completes keyed sameCore (by omega) produced position earlier ?_
              intro value path later isEager produced earlier position
              exact completeWith_completes keyed inside item item value path later (by omega) isEager
                rfl (fun _ => rfl) produced earlier position
          | nonNull inner =>
              -- The value is not null, so the types need to agree in their cores only.
              refine completeWith_completes keyed inside inner declared value path before
                bound isEager sameCore ?_ produced earlier position
              intro isNullToo
              rw [isNull] at isNullToo
              cases isNullToo

end

/-! ## Fields -/

/-- A field is resolved, and then its value is completed. -/
theorem Completes.called {call : Call Object} {outside : σ}
    {step : Option ResponseTree × Progress (Record σ Object) Object}
    (isField : ∃ parent, IsReached before.outside.trace parent ∧
      call.path = parent ++ [.field call.node.responseKey])
    (isHere : call.path = path)
    (completes : Completes env [.resolved call] limit path fits
      { before with outside := { outside, trace := before.outside.trace ++ [.resolved call] } } step) :
    ∃ yield : Yield Object, call ∈ yield.calls ∧
      yield.Makes env [] limit path fits before step := by
  rcases completes with ⟨yield, makes, below⟩
  refine ⟨{ yield with calls := call :: yield.calls }, List.mem_cons_self,
    ⟨⟨?_, makes.leads.errors, makes.leads.queue⟩,
      ⟨⟨?_, makes.sound.placed.errors⟩, makes.sound.tasks⟩, ?_, makes.fits⟩⟩
  · rw [makes.leads.trace, List.append_assoc]
    rfl
  · intro other member
    rcases List.mem_cons.mp member with rfl | member
    · rcases isField with ⟨parent, reached, same⟩
      have since := List.Subset.trans (List.subset_append_left _ _) makes.leads.subset
      exact ⟨parent, reached.mono since, same⟩
    · exact makes.sound.placed.calls other member
  · intro mark
    cases mark with
    | call =>
        subst isHere
        exact (makes.scattered .call).cons below (ResponseTree.sightIn_nil_ne_unseen _)
    | error => exact makes.scattered .error
    | task => exact makes.scattered .task

theorem executeField_makes {node : PlanNode} (bound : PlanNode.places node ≤ limit)
    (keyed : ∀ typed ∈ node.typedChildren, PlanChildren.IsKeyed typed.2)
    (inside : FieldsComplete env node.typedChildren
      (env.recorded.executeTyped node.typedChildren) limit)
    (parent : ResolvedValue Object) (outer : ResponsePath)
    (before : Progress (Record σ Object) Object) (reached : IsReached before.outside.trace outer) :
    let path := outer ++ [.field node.responseKey]
    ∃ yield : Yield Object, (∃ call ∈ yield.calls, call.node = node ∧ call.path = path) ∧
      yield.Makes env [] limit path (fun known made => known.Fits node node.returnType path made)
        before (env.recorded.executeField node parent path before) := by
  intro path
  rw [PlanNode.places_eq] at bound
  rcases asked : env.resolve node parent path before.outside.outside with ⟨answer, outside⟩
  let call : Call Object := { node, path, answer }
  have recorded : env.recorded.resolve node parent path before.outside =
      (answer, { outside, trace := before.outside.trace ++ [.resolved call] }) := by
    simp only [Environment.recorded, asked, call]
  have position : Position (before.outside.trace ++ [.resolved call]) path node node.returnType :=
    .field (List.mem_append_right _ (List.mem_singleton_self _))
  have completes : Completes env [.resolved call] limit path
      (fun known made => known.Fits node node.returnType path made)
      { before with outside := { outside, trace := before.outside.trace ++ [.resolved call] } }
      (env.recorded.executeField node parent path before) := by
    cases answer with
    | error error =>
        rw [executeField_of_error recorded]
        exact .fail position.isReached fun known fails => fails
    | ok value =>
        rw [executeField_of_ok recorded]
        have produced : Produced [.resolved call] path value :=
          .resolved (List.mem_singleton_self _)
        refine completeWith_completes_of_eager keyed bound produced position fun isEager => ?_
        exact completeWith_completes keyed inside _ _ _ _ _ (by omega) isEager rfl (fun _ => rfl)
          produced (List.subset_append_right _ _) position
  rcases completes.called ⟨outer, reached, rfl⟩ rfl with ⟨yield, member, makes⟩
  exact ⟨yield, ⟨call, member, rfl, rfl⟩, makes⟩

/-- The place of a field among its siblings. -/
def PlanNode.sibling (node : PlanNode) : Yield.Sibling :=
  (.field node.responseKey, node, node.returnType)

/-- Executing fields makes something for each of them if executing every one does. -/
theorem executeFields_makesAll {children : PlanChildren}
    (distinct : (children.map fun entry => entry.2.responseKey).Nodup)
    (each : ∀ entry ∈ children, ∀ parent outer (before : Progress (Record σ Object) Object),
      IsReached before.outside.trace outer →
      let path := outer ++ [.field entry.2.responseKey]
      ∃ yield : Yield Object, (∃ call ∈ yield.calls, call.node = entry.2 ∧ call.path = path) ∧
        yield.Makes env [] limit path
          (fun known made => known.Fits entry.2 entry.2.returnType path made) before
          (env.recorded.executeField entry.2 parent path before))
    (parent : ResolvedValue Object) (path : ResponsePath)
    (before : Progress (Record σ Object) Object) (reached : IsReached before.outside.trace path) :
    ∃ yield : Yield Object, yield.MakesAll env [] limit path
      ((children.included env.bindings).map PlanNode.sibling) before
      ((env.recorded.executeFields children parent path before).1.map
          (List.map fun field => field.2.2),
        (env.recorded.executeFields children parent path before).2) := by
  induction children generalizing before with
  | nil => exact ⟨{}, .nil⟩
  | cons entry rest ih =>
      rcases entry with ⟨key, node⟩
      rw [List.map_cons, List.nodup_cons] at distinct
      have others := ih distinct.2 fun entry member => each entry (List.mem_cons_of_mem _ member)
      have same : env.recorded.bindings = env.bindings := rfl
      rw [executeFields_cons, same, PlanChildren.included_cons]
      cases included : node.isIncluded env.bindings with
      | false => exact others before reached
      | true =>
          rcases each (key, node) List.mem_cons_self parent path before reached with
            ⟨yield, called, makes⟩
          rw [if_pos rfl, List.map_cons, if_pos rfl]
          simp only at makes ⊢
          rcases executed : env.recorded.executeField node parent
            (path ++ [.field node.responseKey]) before with ⟨made, after⟩
          rw [executed] at makes
          have position := makes.leads.position called
          simp only [executed]
          cases isFilled : ResponseTree.filled (!node.returnType.isNonNull) made with
          | none => exact ⟨yield, .stop makes position isFilled⟩
          | some tree =>
              rcases others after (reached.mono makes.leads.subset) with ⟨more, all⟩
              have isNew : PathSegment.field node.responseKey ∉
                  ((PlanChildren.included rest env.bindings).map PlanNode.sibling).map
                    Prod.fst := by
                intro member
                rw [List.map_map] at member
                rcases List.mem_map.mp member with ⟨child, isChild, sameKey⟩
                have isKey := List.mem_map_of_mem (f := PlanNode.responseKey) isChild
                rw [PathSegment.field.inj sameKey] at isKey
                exact distinct.1 ((PlanChildren.included_keys_sublist rest env.bindings).subset
                  isKey)
              have joint := Yield.MakesAll.cons isNew makes position isFilled all
              rw [Option.map_map] at joint ⊢
              exact ⟨yield ++ more, joint⟩

theorem executeTyped_completes {typedChildren : List (String × List (String × PlanNode))}
    (keyed : ∀ typed ∈ typedChildren, PlanChildren.IsKeyed typed.2)
    (each : ∀ typed ∈ typedChildren, ∀ parent path (before : Progress (Record σ Object) Object),
      IsReached before.outside.trace path →
      ∃ yield : Yield Object, yield.MakesAll env [] limit path
        ((PlanChildren.included typed.2 env.bindings).map PlanNode.sibling) before
        ((env.recorded.executeFields typed.2 parent path before).1.map
            (List.map fun field => field.2.2),
          (env.recorded.executeFields typed.2 parent path before).2)) :
    FieldsComplete env typedChildren (env.recorded.executeTyped typedChildren) limit := by
  intro objectType value path before reached
  induction typedChildren with
  | nil =>
      refine .result ⟨[], rfl, rfl, List.nodup_nil, ?_, ?_⟩
      · intro child member
        cases member
      · intro child member
        cases member
  | cons typed rest ih =>
      rcases typed with ⟨name, children⟩
      rw [Environment.executeTyped]
      simp only [childrenOf, OrderedMap.find?_cons]
      by_cases same : name = objectType
      · simp only [if_pos same]
        rcases keyed (name, children) List.mem_cons_self with ⟨distinct, _⟩
        rcases each (name, children) List.mem_cons_self value path before reached with
          ⟨yield, makes⟩
        have keys := distinct.sublist (PlanChildren.included_keys_sublist children env.bindings)
        exact ⟨yield, makes.object (fun fields => executeFields_some_heads) keys,
          (makes.scattered .call).not_mem⟩
      · simp only [if_neg same]
        exact ih (fun typed member => keyed typed (List.mem_cons_of_mem _ member))
          (fun typed member => each typed (List.mem_cons_of_mem _ member))

/-- Executing the fields of an object makes something for each of them. -/
theorem executeFields_makesAll_of_keyed {children : PlanChildren} (keyed : children.IsKeyed)
    {limit : Nat} (bound : PlanNode.childrenPlaces children ≤ limit)
    (parent : ResolvedValue Object) (path : ResponsePath)
    (before : Progress (Record σ Object) Object) (reached : IsReached before.outside.trace path) :
    ∃ yield : Yield Object, yield.MakesAll env [] limit path
      ((children.included env.bindings).map PlanNode.sibling) before
      ((env.recorded.executeFields children parent path before).1.map
          (List.map fun field => field.2.2),
        (env.recorded.executeFields children parent path before).2) := by
  induction keyed generalizing limit parent path before with
  | @intro children distinct inner ih =>
      refine executeFields_makesAll distinct ?_ parent path before reached
      intro entry member parent path before reached
      have fewer : PlanNode.places entry.2 ≤ limit :=
        Nat.le_trans (PlanNode.places_le member) bound
      refine executeField_makes fewer (inner entry member) ?_ parent path before reached
      apply executeTyped_completes (inner entry member)
      intro typed typedMem parent path before reached
      refine ih entry member typed typedMem ?_ parent path before reached
      have below := PlanNode.childrenPlaces_le typedMem
      rw [PlanNode.places_eq] at fewer
      omega

theorem executeTyped_completes_of_keyed {typedChildren : List (String × List (String × PlanNode))}
    (keyed : ∀ typed ∈ typedChildren, PlanChildren.IsKeyed typed.2)
    (bound : PlanNode.typedPlaces typedChildren ≤ limit) :
    FieldsComplete env typedChildren (env.recorded.executeTyped typedChildren) limit := by
  apply executeTyped_completes keyed
  intro typed member parent path before reached
  exact executeFields_makesAll_of_keyed (keyed typed member)
    (Nat.le_trans (PlanNode.childrenPlaces_le member) bound) parent path before reached

end GraphQL

import GraphQL.Proofs.Execution.Laziness
import GraphQL.Proofs.Execution.Shape

/-!
# What completing values makes

Every function that completes a value makes something of the form of its type, or fails with an
error. On the way it leaves calls, errors and tasks at or below the path of the value: errors where
nothing is shown, and tasks for values that are lazy and that came to stand there, where the tree
waits for them.
-/

namespace GraphQL

variable {σ Object : Type}

/-- What a step adds to an execution. -/
structure Yield (Object : Type) where
  calls : List (Call Object) := []
  errors : List FieldError := []
  tasks : List (Task Object) := []

/-- The paths of the marks of a kind. -/
def Yield.paths (yield : Yield Object) : Mark → List ResponsePath
  | .call => yield.calls.map Call.path
  | .error => yield.errors.map fun error => error.path.getD []
  | .task => yield.tasks.map Task.path

instance : Append (Yield Object) where
  append first second :=
    { calls := first.calls ++ second.calls
      errors := first.errors ++ second.errors
      tasks := first.tasks ++ second.tasks }

theorem Yield.paths_append (first second : Yield Object) (mark : Mark) :
    (first ++ second).paths mark = first.paths mark ++ second.paths mark := by
  cases mark <;> exact List.map_append

/-- What is known of an execution, with some of its tasks. -/
def Environment.evidence (env : Environment σ Object) (tasks : List (Task Object))
    (progress : Progress (Record σ Object) Object) : Evidence Object where
  schema := env.schema
  bindings := env.bindings
  trace := progress.outside.trace
  errors := progress.errors
  tasks := tasks

/-- A task of limited height, whose value is lazy and came to stand at its path. -/
structure Task.IsDue (env : Environment σ Object) (origin trace : List (Occurrence Object))
    (limit : Nat) (task : Task Object) : Prop where
  isLazy : env.isLazy task.value = true
  produced : Produced origin task.path task.value
  position : Position trace task.path task.node task.type
  keyed : ∀ typed ∈ task.node.typedChildren, PlanChildren.IsKeyed typed.2
  height : task.height ≤ limit

theorem Task.IsDue.mono {env : Environment σ Object}
    {origin trace more later : List (Occurrence Object)} {limit : Nat} {task : Task Object}
    (due : task.IsDue env origin trace limit) (earlier : origin ⊆ more) (since : trace ⊆ later) :
    task.IsDue env more later limit where
  isLazy := due.isLazy
  produced := due.produced.mono earlier
  position := due.position.mono since
  keyed := due.keyed
  height := due.height

namespace Yield

/-- A step from one state to another adds something. -/
structure Leads (yield : Yield Object) (before after : Progress (Record σ Object) Object) : Prop where
  trace : after.outside.trace = before.outside.trace ++ yield.calls.map .resolved
  errors : after.errors = before.errors ++ yield.errors
  queue : after.queue = before.queue ++ yield.tasks

/-- Calls are made at fields of what was reached, and errors have paths that were reached. -/
structure IsPlaced (yield : Yield Object) (trace : List (Occurrence Object)) : Prop where
  calls : ∀ call ∈ yield.calls,
    ∃ parent, IsReached trace parent ∧ call.path = parent ++ [.field call.node.responseKey]
  errors : ∀ error ∈ yield.errors, ∃ path, IsReached trace path ∧ error.path = some path

theorem IsPlaced.mono {yield : Yield Object} {trace later : List (Occurrence Object)}
    (placed : yield.IsPlaced trace) (more : trace ⊆ later) : yield.IsPlaced later where
  calls := by
    intro call member
    rcases placed.calls call member with ⟨parent, reached, isHere⟩
    exact ⟨parent, reached.mono more, isHere⟩
  errors := by
    intro error member
    rcases placed.errors error member with ⟨path, reached, isHere⟩
    exact ⟨path, reached.mono more, isHere⟩

/-- What a step adds is placed, and its tasks are due to what has happened since some time. -/
structure IsSound (yield : Yield Object) (env : Environment σ Object)
    (origin trace : List (Occurrence Object)) (limit : Nat) : Prop where
  placed : yield.IsPlaced trace
  tasks : ∀ task ∈ yield.tasks,
    task.IsDue env (origin ++ yield.calls.map .resolved) trace limit

/-- A step makes something that fits at a path. -/
structure Makes (yield : Yield Object) (env : Environment σ Object)
    (origin : List (Occurrence Object)) (limit : Nat) (path : ResponsePath)
    (fits : Evidence Object → Option ResponseTree → Prop)
    (before : Progress (Record σ Object) Object)
    (step : Option ResponseTree × Progress (Record σ Object) Object) : Prop where
  leads : yield.Leads before step.2
  sound : yield.IsSound env origin step.2.outside.trace limit
  scattered : ∀ mark, Scattered mark path step.1 (yield.paths mark)
  fits : fits (env.evidence yield.tasks step.2) step.1

/-- A part of a list or object: where it stands, the field to which it belongs, and its type. -/
abbrev Sibling := PathSegment × PlanNode × TypeRef

/-- Steps make something for siblings, or fail with one that cannot be null. -/
structure MakesAll (yield : Yield Object) (env : Environment σ Object)
    (origin : List (Occurrence Object)) (limit : Nat) (path : ResponsePath)
    (siblings : List Sibling) (before : Progress (Record σ Object) Object)
    (step : Option (List ResponseTree) × Progress (Record σ Object) Object) : Prop where
  leads : yield.Leads before step.2
  sound : yield.IsSound env origin step.2.outside.trace limit
  scattered : ∀ mark, ScatteredAmong mark path (siblings.map Prod.fst) step.1 (yield.paths mark)
  fits :
    match step.1 with
    | some trees => List.Forall₂ (fun (sibling : Sibling) tree =>
        Position step.2.outside.trace (path ++ [sibling.1]) sibling.2.1 sibling.2.2 ∧
          Shaped (env.evidence yield.tasks step.2) sibling.2.1 sibling.2.2 (path ++ [sibling.1])
            tree) siblings trees
    | none => (env.evidence yield.tasks step.2).FailsBelow path

section

variable {env : Environment σ Object} {origin : List (Occurrence Object)} {limit : Nat}
  {path : ResponsePath} {before middle after : Progress (Record σ Object) Object}
  {first second : Yield Object}

theorem Leads.refl (progress : Progress (Record σ Object) Object) :
    Leads {} progress progress where
  trace := (List.append_nil _).symm
  errors := (List.append_nil _).symm
  queue := (List.append_nil _).symm

theorem Leads.trans (former : first.Leads before middle) (latter : second.Leads middle after) :
    (first ++ second).Leads before after where
  trace := by
    rw [latter.trace, former.trace, List.append_assoc, ← List.map_append]
    rfl
  errors := by
    rw [latter.errors, former.errors, List.append_assoc]
    rfl
  queue := by
    rw [latter.queue, former.queue, List.append_assoc]
    rfl

theorem Leads.subset (leads : first.Leads before after) :
    before.outside.trace ⊆ after.outside.trace := by
  rw [leads.trace]
  exact List.subset_append_left _ _

/-- A field that was called has a position. -/
theorem Leads.position (leads : first.Leads before after) {node : PlanNode}
    (called : ∃ call ∈ first.calls, call.node = node ∧ call.path = path) :
    Position after.outside.trace path node node.returnType := by
  rcases called with ⟨⟨caller, place, answer⟩, member, rfl, rfl⟩
  have occurs : .resolved ⟨caller, place, answer⟩ ∈ after.outside.trace := by
    rw [leads.trace]
    exact List.mem_append_right _ (List.mem_map_of_mem member)
  exact .field occurs

theorem Leads.extends {tasks others : List (Task Object)} (leads : first.Leads before after) :
    (env.evidence tasks before).Extends (env.evidence others after) where
  schema := rfl
  bindings := rfl
  trace := leads.subset
  errors := by
    change before.errors ⊆ after.errors
    rw [leads.errors]
    exact List.subset_append_left _ _

theorem IsPlaced.append {trace : List (Occurrence Object)} (former : first.IsPlaced trace)
    (latter : second.IsPlaced trace) : (first ++ second).IsPlaced trace where
  calls call member := (List.mem_append.mp member).elim (former.calls call) (latter.calls call)
  errors error member :=
    (List.mem_append.mp member).elim (former.errors error) (latter.errors error)

theorem IsSound.append {trace later : List (Occurrence Object)}
    (former : first.IsSound env origin trace limit) (latter : second.IsSound env origin later limit)
    (since : trace ⊆ later) : (first ++ second).IsSound env origin later limit where
  placed := (former.placed.mono since).append latter.placed
  tasks := by
    intro task member
    change task.IsDue env (origin ++ (first.calls ++ second.calls).map .resolved) later limit
    rw [List.map_append]
    rcases List.mem_append.mp member with member | member
    · refine (former.tasks task member).mono ?_ since
      rw [← List.append_assoc]
      exact List.subset_append_left _ _
    · refine (latter.tasks task member).mono ?_ (List.Subset.refl _)
      intro occurrence found
      rcases List.mem_append.mp found with found | found
      · exact List.mem_append_left _ found
      · exact List.mem_append_right _ (List.mem_append_right _ found)

/-! ## Siblings -/

variable {siblings : List Sibling}

theorem MakesAll.nil : MakesAll {} env origin limit path [] before (some [], before) where
  leads := .refl _
  sound := ⟨⟨by simp, by simp⟩, by simp⟩
  scattered mark := by cases mark <;> exact .nil
  fits := .nil

variable {segment : PathSegment} {node : PlanNode} {type : TypeRef}
  {step : Option ResponseTree × Progress (Record σ Object) Object}

/-- A sibling that fails and cannot be null ends the steps. -/
theorem MakesAll.stop
    (makes : first.Makes env origin limit (path ++ [segment])
      (fun known made => known.Fits node type (path ++ [segment]) made) before step)
    (position : Position step.2.outside.trace (path ++ [segment]) node type)
    (fails : ResponseTree.filled (!type.isNonNull) step.1 = none) :
    first.MakesAll env origin limit path ((segment, node, type) :: siblings) before
      (none, step.2) where
  leads := makes.leads
  sound := makes.sound
  scattered mark := .stop (makes.scattered mark)
  fits := makes.fits.fails position fails

theorem MakesAll.cons {tree : ResponseTree}
    {others : Option (List ResponseTree) × Progress (Record σ Object) Object}
    (isNew : segment ∉ siblings.map Prod.fst)
    (makes : first.Makes env origin limit (path ++ [segment])
      (fun known made => known.Fits node type (path ++ [segment]) made) before step)
    (position : Position step.2.outside.trace (path ++ [segment]) node type)
    (isFilled : ResponseTree.filled (!type.isNonNull) step.1 = some tree)
    (rest : second.MakesAll env origin limit path siblings step.2 others) :
    (first ++ second).MakesAll env origin limit path ((segment, node, type) :: siblings) before
      (others.1.map (tree :: ·), others.2) where
  leads := makes.leads.trans rest.leads
  sound := makes.sound.append rest.sound rest.leads.subset
  scattered mark := by
    rw [paths_append]
    exact .cons isNew ((makes.scattered mark).filled isFilled) (rest.scattered mark)
  fits := by
    have fits := rest.fits
    rcases others with ⟨made?, after⟩
    cases made? with
    | none => exact Evidence.FailsBelow.mono fits (Leads.refl after).extends
    | some trees =>
        refine .cons ⟨position.mono rest.leads.subset, ?_⟩
          (fits.imp fun sibling tree found => ⟨found.1, ?_⟩)
        · exact (makes.fits.filled isFilled).mono rest.leads.extends fun task member _ _ _ =>
            List.mem_append_left _ member
        · exact found.2.mono (Leads.refl after).extends fun task member _ _ _ =>
            List.mem_append_right _ member

/-- The items of a list. -/
theorem MakesAll.list {item : TypeRef} {count : Nat}
    {step : Option (List ResponseTree) × Progress (Record σ Object) Object}
    (makes : first.MakesAll env origin limit path
      ((List.range' 0 count).map fun position => (.index position, node, item)) before step)
    {declared : TypeRef} (isList : declared.core = .list item) :
    first.Makes env origin limit path (fun known made => known.Fits node declared path made) before
      (step.1.map (.list (!item.isNonNull)), step.2) where
  leads := makes.leads
  sound := makes.sound
  scattered mark := by
    refine (makes.scattered mark).gather ?_
    intro tree isTree
    rcases Option.map_eq_some_iff.mp isTree with ⟨trees, isMade, rfl⟩
    refine ⟨trees, isMade, ?_⟩
    intro index segment branch isSegment isBranch
    simp only [List.map_map, List.getElem?_map, Option.map_eq_some_iff] at isSegment
    rcases isSegment with ⟨position, isPosition, rfl⟩
    rcases List.getElem?_eq_some_iff.mp isPosition with ⟨bound, isAt⟩
    rw [List.getElem_range', Nat.zero_add, Nat.one_mul] at isAt
    subst isAt
    exact ⟨!item.isNonNull, by simp [ResponseTree.branch?, isBranch]⟩
  fits := by
    have fits := makes.fits
    rcases step with ⟨made?, after⟩
    cases made? with
    | none => exact fits
    | some trees =>
        refine .list isList ?_
        intro position tree found
        rcases List.getElem?_eq_some_iff.mp found with ⟨bound, rfl⟩
        have length := fits.length_eq
        rw [List.length_map, List.length_range'] at length
        have each := (List.forall₂_iff_get.mp fits).2 position (by simpa [length]) bound
        simpa using each.2

/-- The fields of an object. -/
theorem MakesAll.object {children : List PlanNode}
    {step : Option (List (String × Bool × ResponseTree)) × Progress (Record σ Object) Object}
    (makes : first.MakesAll env origin limit path
      (children.map fun child => (.field child.responseKey, child, child.returnType)) before
      (step.1.map (List.map fun field => field.2.2), step.2))
    (named : ∀ fields, step.1 = some fields →
      ResponseTree.heads fields = children.map PlanNode.head)
    (distinct : (children.map PlanNode.responseKey).Nodup) :
    first.Makes env origin limit path (fun known made => known.FitsObject path children made) before
      (step.1.map .object, step.2) where
  leads := makes.leads
  sound := makes.sound
  scattered mark := by
    refine (makes.scattered mark).gather ?_
    intro tree isTree
    rcases Option.map_eq_some_iff.mp isTree with ⟨fields, isMade, rfl⟩
    refine ⟨_, congrArg (Option.map _) isMade, ?_⟩
    intro index segment branch isSegment isBranch
    have heads := named fields isMade
    have keys := ResponseTree.keys_of_heads heads
    simp only [List.map_map, List.getElem?_map, Option.map_eq_some_iff] at isSegment isBranch
    rcases isSegment with ⟨child, isChild, rfl⟩
    rcases isBranch with ⟨⟨key, nullable, value⟩, isField, rfl⟩
    have sameKey := congrArg (·[index]?) keys
    simp only [OrderedMap.keys, List.getElem?_map, isField, isChild, Option.map_some,
      Option.some.injEq] at sameKey
    refine ⟨nullable, ?_⟩
    simp only [Function.comp_apply, ← sameKey]
    exact OrderedMap.find?_of_mem (keys ▸ distinct) (List.mem_of_getElem? isField)
  fits := by
    have fits := makes.fits
    rcases step with ⟨made?, after⟩
    cases made? with
    | none => exact fits
    | some fields =>
        have heads := named fields rfl
        have keys := ResponseTree.keys_of_heads heads
        simp only [Option.map_some, List.forall₂_map_left_iff, List.forall₂_map_right_iff] at fits
        refine ⟨fields, rfl, heads, keys ▸ distinct, ?_, ?_⟩
        · intro child member
          rcases List.getElem_of_mem member with ⟨index, bound, rfl⟩
          exact ((List.forall₂_iff_get.mp fits).2 index bound
            (fits.length_eq ▸ bound)).1.exists_resolved
        · intro child member tree field
          rcases List.getElem_of_mem field with ⟨index, bound, isField⟩
          have inside : index < children.length := fits.length_eq ▸ bound
          have each := (List.forall₂_iff_get.mp fits).2 index inside bound
          have sameKey := congrArg (·[index]?) keys
          simp only [OrderedMap.keys, List.getElem?_map, List.getElem?_eq_getElem bound, isField,
            List.getElem?_eq_getElem inside, Option.map_some, Option.some.injEq] at sameKey
          have same : children[index] = child :=
            List.inj_on_of_nodup_map distinct (List.getElem_mem inside) member sameKey.symm
          simp only [List.get_eq_getElem, same, isField] at each
          exact each.2

end

end Yield

end GraphQL

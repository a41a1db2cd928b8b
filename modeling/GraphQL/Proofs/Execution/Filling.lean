import GraphQL.Proofs.Execution.Completing
import GraphQL.Proofs.Execution.Mirroring
import GraphQL.Proofs.Plan.Nesting

/-!
# Filling slots

The values of fields and items are completed for slots one inside the other, as the plan and the types
nest. At every level the slots show what the run without slots has made so far, so both stop at the
same failures and put the same tasks into the queue.
-/

namespace GraphQL

variable {σ Object : Type}

namespace Machine

variable {machine : Machine σ Object} {touched : List Nat} {slot : Nat} {path : ResponsePath}
  {most : Nat} {moves : Machine σ Object → Prop} 
  {ran : Option ResponseTree × Progress σ Object}

theorem Mirrors.mono (mirrors : machine.Mirrors touched slot path most moves ran) {more : Nat}
    (le : most ≤ more) {later : Machine σ Object → Prop} (imp : ∀ after, moves after → later after) :
    machine.Mirrors touched slot path more later ran := by
  rcases mirrors with ⟨after, reached, same, makes⟩
  exact ⟨after, imp after reached, same, makes.mono le (List.Subset.refl _)⟩

/-- A slot directly below one that is not dead is ready while it is unset. -/
theorem isReady_of_child {inner : Nat} {value : SlotValue} {segment : PathSegment}
    (linked : machine.arena.IsLinked) (isAlive : ¬machine.arena.IsDead slot)
    (holds : machine.arena.value? slot = some value) (found : value.child? segment = some inner)
    (isUnset : machine.arena.value? inner = some .unset) : machine.IsReady inner where
  linked := linked
  isAlive dead := by
    have isParent := linked.below slot value holds inner (SlotValue.mem_children_of_child? found)
    rcases dead.above isUnset nofun with ⟨outer, isOuter, above⟩
    cases isParent.symm.trans isOuter
    exact isAlive above
  isUnset := isUnset

/-- The last item that does not wait is made. -/
theorem withBranch_replicate (nullable : Bool) (done : List ResponseTree) (count : Nat)
    (item : ResponseTree) :
    (ResponseTree.list nullable (done ++ List.replicate (count + 1) .waiting)).withBranch
        (.index done.length) item =
      .list nullable ((done ++ [item]) ++ List.replicate count .waiting) := by
  rw [ResponseTree.withBranch, List.replicate_succ, List.set_append_right _ _ (Nat.le_refl _),
    Nat.sub_self, List.set_cons_zero, List.append_assoc, List.singleton_append]

variable {env : Environment σ Object} {node : PlanNode}

theorem completeItems_cons
    (complete : ResolvedValue Object → ResponsePath → Run σ Object (Option ResponseTree))
    (nullable : Bool) (path : ResponsePath) (position : Nat) (value : ResolvedValue Object)
    (rest : List (ResolvedValue Object)) (before : Progress σ Object) :
    Environment.completeItems complete nullable path position (value :: rest) before =
      let first := complete value (path ++ [.index position]) before
      match ResponseTree.filled nullable first.1 with
      | none => (none, first.2)
      | some item =>
          let others :=
            Environment.completeItems complete nullable path (position + 1) rest first.2
          (others.1.map (item :: ·), others.2) := by
  rcases completed : complete value (path ++ [.index position]) before with ⟨made, after⟩
  simp only [Environment.completeItems, bind, StateT.bind, completed]
  cases ResponseTree.filled nullable made <;> rfl

/-- The first item that still waits is completed, and the list shows it after those before. -/
theorem item_mirrors {item : TypeRef} {nullable : Bool}
    {complete : ResolvedValue Object → ResponsePath → Run σ Object (Option ResponseTree)}
    (each : ∀ (machine : Machine σ Object) (inner : Nat) (value : ResolvedValue Object)
      (path : ResponsePath), machine.IsReady inner →
        machine.Mirrors [inner] inner path most (env.Completes inner node item value path machine)
          (complete value path machine.progress))
    {before others : List Nat} {inner : Nat} {done : List ResponseTree} {count : Nat}
    (lengthDone : before.length = done.length) (linked : machine.arena.IsLinked)
    (isAlive : ¬machine.arena.IsDead slot)
    (holds : machine.arena.value? slot = some (.list (before ++ inner :: others)))
    (shows : machine.arena.Shows slot
      (.list nullable (done ++ List.replicate (count + 1) .waiting)))
    {value : ResolvedValue Object} {made : Option ResponseTree} {later : Progress σ Object}
    (ran : complete value (path ++ [.index done.length]) machine.progress = (made, later)) :
    machine.Mirrors [inner] slot path most
      (env.Completes inner node item value (path ++ [.index done.length]) machine)
      ((ResponseTree.filled nullable made).map fun item =>
        .list nullable ((done ++ [item]) ++ List.replicate count .waiting), later) := by
  have found : (SlotValue.list (before ++ inner :: others)).child? (.index done.length) =
      some inner := by
    simp [SlotValue.child?, ← lengthDone]
  have isBranch : (ResponseTree.list nullable
      (done ++ List.replicate (count + 1) .waiting)).branch? (.index done.length) =
        some (nullable, .waiting) := by
    simp [ResponseTree.branch?, List.replicate_succ]
  rcases shows.exists_branch holds found with ⟨_, _, same, isNullable, isWaiting⟩
  cases isBranch.symm.trans same
  rcases each machine inner value (path ++ [.index done.length])
    (isReady_of_child linked isAlive holds found isWaiting) with
    ⟨middle, completes, isProgress, makes⟩
  rw [ran] at isProgress makes
  have makesList := makes.up linked shows holds found isNullable
  rw [show ResponseTree.withBranch _ _ = _ from funext fun item =>
    withBranch_replicate nullable done count item] at makesList
  exact ⟨middle, completes, isProgress, makesList⟩

/-- The items of a list are completed for the slots below it that are still open. -/
theorem completeItems_mirrors {item : TypeRef} {nullable : Bool}
    {complete : ResolvedValue Object → ResponsePath → Run σ Object (Option ResponseTree)}
    (each : ∀ (machine : Machine σ Object) (inner : Nat) (value : ResolvedValue Object)
      (path : ResponsePath), machine.IsReady inner →
        machine.Mirrors [inner] inner path most (env.Completes inner node item value path machine)
          (complete value path machine.progress))
    {before indices : List Nat} {done : List ResponseTree} {values : List (ResolvedValue Object)}
    (length : indices.length = values.length) (lengthDone : before.length = done.length)
    (linked : machine.arena.IsLinked) (isAlive : ¬machine.arena.IsDead slot)
    (holds : machine.arena.value? slot = some (.list (before ++ indices)))
    (shows : machine.arena.Shows slot
      (.list nullable (done ++ List.replicate values.length .waiting)))
    {completed : Option (List ResponseTree)} {later : Progress σ Object}
    (ran : Environment.completeItems complete nullable path done.length values machine.progress =
      (completed, later)) :
    machine.Mirrors indices slot path most
      (env.CompletesItems slot node item path done.length (indices.zip values) machine)
      (completed.map fun rest => .list nullable (done ++ rest), later) := by
  induction values generalizing before indices done machine completed later with
  | nil =>
      cases List.length_eq_zero_iff.mp length
      cases ran
      exact ⟨machine, .done, rfl, .done linked shows⟩
  | cons value rest ih =>
      rcases indices with _ | ⟨inner, others⟩
      · cases length
      have bound := Arena.lt_size_of_value? holds
      have climbs : machine.arena.Climbs (some slot) false := linked.climbs bound (by simp [isAlive])
      rcases ranFirst : complete value (path ++ [.index done.length]) machine.progress with
        ⟨made, progress⟩
      rcases item_mirrors each lengthDone linked isAlive holds shows ranFirst with
        ⟨middle, completes, isProgress, makes⟩
      rw [completeItems_cons, ranFirst] at ran
      cases filled : ResponseTree.filled nullable made with
      | none =>
          simp only [filled] at ran makes
          cases ran
          have isDead : middle.arena.Climbs (some slot) true :=
            makes.linked.climbs (Nat.lt_of_lt_of_le bound makes.evolves.size_le)
              (by simpa using makes.becomes.isDead)
          have subset : [inner] ⊆ inner :: others := by simp
          exact ⟨middle, .next climbs completes (.of_dead isDead _), isProgress,
            makes.mono (Nat.le_refl _) subset⟩
      | some made =>
          simp only [filled, Option.map_some] at ran makes
          have holdsLater : middle.arena.value? slot =
              some (.list ((before ++ [inner]) ++ others)) := by
            rw [List.append_assoc]
            exact makes.shows.value?_list makes.evolves holds
          have isAliveLater :=
            makes.becomes.not_isDead linked makes.linked bound isAlive (by simp)
          rcases ranRest : Environment.completeItems complete nullable path (done.length + 1) rest
            progress with ⟨completedRest, laterRest⟩
          rw [ranRest] at ran
          cases ran
          have position : (done ++ [made]).length = done.length + 1 := List.length_append
          rcases ih (Nat.succ.inj length) (by simp [lengthDone]) makes.linked isAliveLater holdsLater
            makes.shows (by rw [position, isProgress, ranRest]) with
            ⟨after, completesRest, isProgressRest, makesRest⟩
          rw [position] at completesRest
          have distinct := linked.distinct slot _ holds
          have apart : [inner].Disjoint others := by
            rw [List.singleton_disjoint]
            exact (List.nodup_cons.mp (List.nodup_append.mp distinct).2.1).1
          have old (index : Nat) (member : index ∈ others) : index < machine.arena.size :=
            Arena.lt_size_of_parent? (linked.below slot _ holds index
              (List.mem_append_right _ (List.mem_cons_of_mem _ member)))
          refine ⟨after, .next climbs completes completesRest, isProgressRest, ?_⟩
          have makesAll := makes.trans makesRest apart old
          simpa [Option.map_map, Function.comp_def] using makesAll

/-- A slot becomes a list, and its items are completed for new slots. -/
theorem fillsList_mirrors {item : TypeRef} {value : ResolvedValue Object}
    {complete : ResolvedValue Object → ResponsePath → Run σ Object (Option ResponseTree)}
    (each : ∀ (machine : Machine σ Object) (inner : Nat) (value : ResolvedValue Object)
      (path : ResponsePath), machine.IsReady inner →
        machine.Mirrors [inner] inner path most (env.Completes inner node item value path machine)
          (complete value path machine.progress))
    (ready : machine.IsReady slot) (items : List (ResolvedValue Object)) :
    machine.Mirrors [slot] slot path most (env.Fills slot node value path (.list item items) machine)
      ((do
        let completed ← Environment.completeItems complete (!item.isNonNull) path 0 items
        return completed.map (ResponseTree.list (!item.isNonNull)) : Run σ Object _)
          machine.progress) := by
  let opened := machine.openItems slot (!item.isNonNull) items.length
  have makes : machine.Makes [slot] slot path most
      (some (.list (!item.isNonNull) (List.replicate items.length .waiting))) opened :=
    ready.makes_openItems _ _
  have isAlive := makes.becomes.not_isDead ready.linked makes.linked ready.bound ready.isAlive nofun
  have bound : slot < (machine.arena.alloc slot (!item.isNonNull) items.length).size := by
    have := ready.bound
    rw [Arena.size_alloc]
    omega
  have holds : opened.arena.value? slot =
      some (.list ([] ++ machine.arena.next items.length)) := Arena.value?_write_self bound
  rcases ran : Environment.completeItems complete (!item.isNonNull) path 0 items machine.progress
    with ⟨completed, later⟩
  have ranOpened : Environment.completeItems complete (!item.isNonNull) path
      ([] : List ResponseTree).length items opened.progress = (completed, later) := ran
  rcases completeItems_mirrors each List.length_range' rfl makes.linked isAlive holds makes.shows
    ranOpened with ⟨after, completes, isProgress, makesItems⟩
  simp only [bind, StateT.bind, ran]
  refine ⟨after, .list completes, isProgress, makes.after_open rfl makesItems ?_⟩
  exact fun index member => (Arena.mem_next.mp member).1

/-- The fields of an object of some type are executed for the slot of the object. -/
def FieldsMirrored (env : Environment σ Object) (node : PlanNode)
    (fields : String → ResolvedValue Object → ResponsePath → Run σ Object (Option ResponseTree)) :
    Prop :=
  ∀ (machine : Machine σ Object) (slot : Nat) (type : String) (value : ResolvedValue Object)
    (path : ResponsePath), machine.IsReady slot →
      machine.Mirrors [slot] slot path (PlanNode.typedPlaces node.typedChildren)
        (env.Fills slot node value path (.object type) machine) (fields type value path machine.progress)

variable {fields : String → ResolvedValue Object → ResponsePath → Run σ Object (Option ResponseTree)}

/-- A slot is filled as the verdict on its value says, if values of the items of lists are completed
for slots. -/
theorem follow_mirrors (mirrored : FieldsMirrored env node fields) {type : TypeRef}
    {value : ResolvedValue Object} {verdict : Verdict Object} {state : σ}
    (asked : (env.verdict node type value state).1 = verdict)
    (each : ∀ item : TypeRef, item.listDepth + 1 = type.listDepth →
      ∀ (machine : Machine σ Object) (slot : Nat) (value : ResolvedValue Object)
        (path : ResponsePath), machine.IsReady slot →
          machine.Mirrors [slot] slot path
            (type.listDepth + PlanNode.typedPlaces node.typedChildren)
            (env.Completes slot node item value path machine)
            (env.completeWith node fields item value path machine.progress))
    (ready : machine.IsReady slot) :
    machine.Mirrors [slot] slot path (type.listDepth + PlanNode.typedPlaces node.typedChildren)
      (env.Fills slot node value path verdict machine)
      (env.follow node fields value path verdict machine.progress) := by
  cases verdict with
  | failure error =>
      exact (mirrors_fail ready.linked ready.bound).mono (Nat.le_refl _) fun after => .failure
  | null =>
      refine ⟨_, .null, rfl, ready.makes_write nofun rfl ?_⟩
      exact Arena.value?_write_self ready.bound
  | leaf json =>
      refine ⟨_, .leaf, rfl, ready.makes_write nofun rfl ?_⟩
      exact Arena.value?_write_self ready.bound
  | object type =>
      exact (mirrored _ slot type value path ready).mono (Nat.le_add_left _ _) fun after => id
  | list item items =>
      exact fillsList_mirrors (each item (Environment.listDepth_of_verdict asked)) ready items

/-- A value that is not lazy is completed as the verdict on it says. -/
theorem completeWith_mirrors_of_eager {type : TypeRef} {value : ResolvedValue Object}
    (isEager : env.isLazy value = false) (ready : machine.IsReady slot)
    (follows : ∀ (machine : Machine σ Object) (verdict : Verdict Object) (state : σ),
      (env.verdict node type value state).1 = verdict → machine.IsReady slot →
        machine.Mirrors [slot] slot path most (env.Fills slot node value path verdict machine)
          (env.follow node fields value path verdict machine.progress)) :
    machine.Mirrors [slot] slot path most (env.Completes slot node type value path machine)
      (env.completeWith node fields type value path machine.progress) := by
  rw [Environment.completeWith_of_eager isEager]
  rcases asked : env.verdict node type value machine.outside with ⟨verdict, outside⟩
  -- What is asked changes neither the slots nor the queue.
  have going : (Run.ask (env.verdict node type value) >>=
      env.follow node fields value path) machine.progress =
        env.follow node fields value path verdict { machine with outside }.progress := by
    simp only [bind, StateT.bind, Run.ask, progress, asked]
  rw [going]
  rcases follows { machine with outside } verdict _ (congrArg Prod.fst asked) (ready.ask outside)
    with ⟨after, fills, isProgress, makes⟩
  exact ⟨after, .eager isEager asked fills, isProgress, makes.of_outside⟩

/-- A value is completed for a slot. -/
theorem completeWith_mirrors
    (keyed : ∀ typed ∈ node.typedChildren, PlanChildren.IsKeyed typed.2)
    (mirrored : FieldsMirrored env node fields) (type : TypeRef) (value : ResolvedValue Object)
    (path : ResponsePath) (ready : machine.IsReady slot) :
    machine.Mirrors [slot] slot path
      (1 + type.listDepth + PlanNode.typedPlaces node.typedChildren)
      (env.Completes slot node type value path machine)
      (env.completeWith node fields type value path machine.progress) := by
  induction lists : type.listDepth using Nat.strongRecOn
    generalizing type value path slot machine with
  | ind depth inner =>
      subst lists
      cases isLazy : env.isLazy value with
      | true =>
          rw [Environment.completeWith_of_lazy isLazy]
          refine ⟨_, .lazy isLazy, ?_, ready.makes_postpone (Nat.le_refl _) keyed⟩
          simp [progress, postpone, Run.postpone]
      | false =>
          refine completeWith_mirrors_of_eager isLazy ready fun machine verdict state asked ready => ?_
          refine (follow_mirrors mirrored asked ?_ ready).mono (by omega) fun after => id
          intro item fewer machine slot value path ready
          have below := inner item.listDepth (by omega) item value path ready rfl
          exact below.mono (by omega) fun after => id

/-! ## Fields -/

theorem branch?_concat {fields : List (String × Bool × ResponseTree)} {key : String}
    (isNew : key ∉ OrderedMap.keys fields) (nullable : Bool) (value : ResponseTree) :
    (ResponseTree.object (fields ++ [(key, nullable, value)])).branch? (.field key) =
      some (nullable, value) :=
  OrderedMap.find?_concat isNew (nullable, value)

theorem withBranch_concat {fields : List (String × Bool × ResponseTree)} {key : String}
    (isNew : key ∉ OrderedMap.keys fields) (nullable : Bool) (old value : ResponseTree) :
    (ResponseTree.object (fields ++ [(key, nullable, old)])).withBranch (.field key) value =
      .object (fields ++ [(key, nullable, value)]) := by
  have found : OrderedMap.find? (fields ++ [(key, nullable, old)]) key = some (nullable, old) :=
    OrderedMap.find?_concat isNew _
  simp only [ResponseTree.withBranch, found]
  exact congrArg ResponseTree.object (OrderedMap.insert_concat isNew _ _)

/-- A field of an object is executed, and the object shows it after those before. -/
theorem field_mirrors (keyed : ∀ typed ∈ node.typedChildren, PlanChildren.IsKeyed typed.2)
    (mirrored : FieldsMirrored env node (env.executeTyped node.typedChildren))
    (parent : ResolvedValue Object) (linked : machine.arena.IsLinked)
    (isAlive : ¬machine.arena.IsDead slot) {done : List (String × Bool × ResponseTree)}
    (shows : machine.arena.Shows slot (.object done))
    (isNew : node.responseKey ∉ OrderedMap.keys done) {made : Option ResponseTree}
    {later : Progress σ Object}
    (ran : env.executeField node parent (path ++ [.field node.responseKey]) machine.progress =
      (made, later)) :
    machine.Mirrors [] slot path (PlanNode.places node)
      (env.ExecutesField slot node parent path machine)
      ((ResponseTree.filled (!node.returnType.isNonNull) made).map fun value =>
        .object (done ++ [(node.responseKey, !node.returnType.isNonNull, value)]), later) := by
  rcases exists_entries shows isNew with ⟨entries, holdsEntries, -⟩
  have bound := Arena.lt_size_of_value? holdsEntries
  have opens : machine.Makes [] slot path (PlanNode.places node)
      (some (.object (done ++ [(node.responseKey, !node.returnType.isNonNull, .waiting)])))
      (machine.openField slot node) := makes_openField linked shows isNew
  rcases exists_child_openField shows isNew with ⟨value, holds, found⟩
  rcases opens.shows.exists_branch holds found with ⟨_, _, isBranch, isNullable, isWaiting⟩
  cases (branch?_concat isNew _ _).symm.trans isBranch
  have isAliveLater := opens.becomes.not_isDead linked opens.linked bound isAlive nofun
  rcases asked : env.resolve node parent (path ++ [.field node.responseKey]) machine.outside with
    ⟨resolved, outside⟩
  let opened : Machine σ Object := { machine.openField slot node with outside }
  have isReady : opened.IsReady machine.arena.size :=
    (isReady_of_child opens.linked isAliveLater holds found isWaiting).ask outside
  -- What becomes of the new slot becomes of the object.
  have around {moves later : Machine σ Object → Prop}
      (imp : ∀ after, moves after → later after) {ran : Option ResponseTree × Progress σ Object}
      (mirrors : opened.Mirrors [machine.arena.size] machine.arena.size
        (path ++ [.field node.responseKey]) (PlanNode.places node) moves ran) :
      machine.Mirrors [] slot path (PlanNode.places node) later
        ((ResponseTree.filled (!node.returnType.isNonNull) ran.1).map fun value =>
          .object (done ++ [(node.responseKey, !node.returnType.isNonNull, value)]), ran.2) := by
    rcases mirrors with ⟨after, moved, isProgress, makes⟩
    have makesObject := makes.up isReady.linked opens.shows holds found isNullable
    rw [show ResponseTree.withBranch _ _ = _ from funext fun value =>
      withBranch_concat isNew _ _ value] at makesObject
    refine ⟨after, imp after moved, isProgress, opens.after_open rfl makesObject.of_outside ?_⟩
    exact fun index member => Nat.le_of_eq (List.mem_singleton.mp member).symm
  cases resolved with
  | error error =>
      rw [executeField_of_error asked] at ran
      have mirrors : opened.Mirrors [machine.arena.size] machine.arena.size
          (path ++ [.field node.responseKey]) (PlanNode.places node) _ (made, later) :=
        ran ▸ mirrors_fail isReady.linked isReady.bound
      exact around (fun after fails => .failed asked fails) mirrors
  | ok value =>
      rw [executeField_of_ok asked] at ran
      have completed : env.completeWith node (env.executeTyped node.typedChildren) node.returnType
          value (path ++ [.field node.responseKey]) opened.progress = (made, later) := ran
      have mirrors := completeWith_mirrors keyed mirrored node.returnType value
        (path ++ [.field node.responseKey]) isReady
      rw [completed] at mirrors
      refine around (fun after completes => .resolved asked completes) (mirrors.mono ?_ fun _ => id)
      rw [PlanNode.places_eq]

/-- The fields that are selected on a type are executed for the slot of an object, if there are any. -/
def SelectedMirrored (env : Environment σ Object)
    (typedChildren : List (String × List (String × PlanNode))) : Prop :=
  ∀ (machine : Machine σ Object) (slot : Nat) (type : String) (value : ResolvedValue Object)
    (path : ResponsePath), machine.IsReady slot →
      machine.Mirrors [slot] slot path (PlanNode.typedPlaces typedChildren)
        (fun after =>
          match OrderedMap.find? typedChildren type with
          | none => after = machine.write slot (.object [])
          | some children =>
              env.ExecutesFields slot children value path (machine.write slot (.object [])) after)
        (env.executeTyped typedChildren type value path machine.progress)

theorem SelectedMirrored.fieldsMirrored (mirrored : SelectedMirrored env node.typedChildren) :
    FieldsMirrored env node (env.executeTyped node.typedChildren) := by
  intro machine slot type value path ready
  refine (mirrored machine slot type value path ready).mono (Nat.le_refl _) fun after moved => ?_
  cases selected : OrderedMap.find? node.typedChildren type with
  | none =>
      simp only [selected] at moved
      exact moved ▸ .unselected selected
  | some children =>
      simp only [selected] at moved
      exact .object selected moved

mutual

theorem executeField_mirrors (node : PlanNode)
    (keyed : ∀ typed ∈ node.typedChildren, PlanChildren.IsKeyed typed.2)
    (parent : ResolvedValue Object) {machine : Machine σ Object} {slot : Nat} {path : ResponsePath}
    (linked : machine.arena.IsLinked) (isAlive : ¬machine.arena.IsDead slot)
    {done : List (String × Bool × ResponseTree)} (shows : machine.arena.Shows slot (.object done))
    (isNew : node.responseKey ∉ OrderedMap.keys done) {made : Option ResponseTree}
    {later : Progress σ Object}
    (ran : env.executeField node parent (path ++ [.field node.responseKey]) machine.progress =
      (made, later)) :
    machine.Mirrors [] slot path (PlanNode.places node)
      (env.ExecutesField slot node parent path machine)
      ((ResponseTree.filled (!node.returnType.isNonNull) made).map fun value =>
        .object (done ++ [(node.responseKey, !node.returnType.isNonNull, value)]), later) := by
  have inner : SelectedMirrored env node.typedChildren := by
    match node with
    | ⟨_, _, _, _, _, _, _, _, typedChildren⟩ => exact executeTyped_mirrors typedChildren keyed
  exact field_mirrors keyed inner.fieldsMirrored parent linked isAlive shows isNew ran

theorem executeTyped_mirrors (typedChildren : List (String × List (String × PlanNode)))
    (keyed : ∀ typed ∈ typedChildren, PlanChildren.IsKeyed typed.2) :
    SelectedMirrored env typedChildren := by
  intro machine slot type value path ready
  have isObject : (machine.arena.write slot (.object [])).Shows slot (.object []) :=
    ⟨[], Arena.value?_write_self ready.bound, rfl⟩
  match typedChildren with
  | [] =>
      simp only [Environment.executeTyped]
      exact ⟨_, rfl, rfl, ready.makes_write nofun rfl isObject⟩
  | (name, children) :: rest =>
      simp only [Environment.executeTyped, OrderedMap.find?_cons, PlanNode.typedPlaces]
      by_cases same : name = type
      · simp only [if_pos same, bind, StateT.bind]
        have opens : machine.Makes [slot] slot path
            (max (PlanNode.childrenPlaces children) (PlanNode.typedPlaces rest)) (some (.object []))
            (machine.write slot (.object [])) := ready.makes_write nofun rfl isObject
        have isAlive :=
          opens.becomes.not_isDead ready.linked opens.linked ready.bound ready.isAlive nofun
        rcases ran : env.executeFields children value path machine.progress with ⟨made, later⟩
        rcases executeFields_mirrors children (keyed _ List.mem_cons_self) value opens.linked isAlive
          opens.shows (fun _ _ => List.not_mem_nil) ran with ⟨after, moved, isProgress, makes⟩
        refine ⟨after, moved, isProgress, opens.after_open rfl (?_ : Makes _ [] _ _ _ _ _) nofun⟩
        exact makes.mono (Nat.le_max_left _ _) (List.Subset.refl _)
      · simp only [if_neg same]
        have others := executeTyped_mirrors rest
          (fun typed member => keyed typed (List.mem_cons_of_mem _ member)) machine slot type value
          path ready
        exact others.mono (Nat.le_max_right _ _) fun _ => id

theorem executeFields_mirrors (children : List (String × PlanNode))
    (keyed : PlanChildren.IsKeyed children) (parent : ResolvedValue Object)
    {machine : Machine σ Object} {slot : Nat} {path : ResponsePath}
    (linked : machine.arena.IsLinked) (isAlive : ¬machine.arena.IsDead slot)
    {done : List (String × Bool × ResponseTree)} (shows : machine.arena.Shows slot (.object done))
    (isNew : ∀ entry ∈ children, entry.2.responseKey ∉ OrderedMap.keys done)
    {made : Option (List (String × Bool × ResponseTree))} {later : Progress σ Object}
    (ran : env.executeFields children parent path machine.progress = (made, later)) :
    machine.Mirrors [] slot path (PlanNode.childrenPlaces children)
      (env.ExecutesFields slot children parent path machine)
      (made.map fun more => .object (done ++ more), later) := by
  match children with
  | [] =>
      simp only [Environment.executeFields] at ran
      cases ran
      refine ⟨machine, .done, rfl, .done linked ?_⟩
      simpa using shows
  | (key, node) :: rest =>
      rcases keyed with ⟨distinct, inner⟩
      rw [List.map_cons, List.nodup_cons] at distinct
      have keyedRest : PlanChildren.IsKeyed rest :=
        .intro distinct.2 fun entry member => inner entry (List.mem_cons_of_mem _ member)
      have isNewRest (entry : String × PlanNode) (member : entry ∈ rest) :=
        isNew entry (List.mem_cons_of_mem _ member)
      rcases exists_entries shows (isNew _ List.mem_cons_self) with ⟨entries, holds, -⟩
      have isNot : machine.arena.value? slot ≠ some .null := by
        rw [holds]
        nofun
      rw [executeFields_cons] at ran
      simp only [PlanNode.childrenPlaces]
      cases included : node.isIncluded env.bindings with
      | false =>
          simp only [included, Bool.false_eq_true, if_false] at ran
          have others := executeFields_mirrors rest keyedRest parent linked isAlive shows isNewRest ran
          exact others.mono (Nat.le_max_right _ _) fun after => .skipped isNot included
      | true =>
          simp only [included, if_true] at ran
          rcases ranFirst : env.executeField node parent (path ++ [.field node.responseKey])
            machine.progress with ⟨first, progress⟩
          rcases executeField_mirrors node (inner _ List.mem_cons_self) parent linked isAlive shows
            (isNew _ List.mem_cons_self) ranFirst with ⟨middle, executes, isProgress, makes⟩
          rw [ranFirst] at ran
          cases filled : ResponseTree.filled (!node.returnType.isNonNull) first with
          | none =>
              simp only [filled] at ran makes
              cases ran
              rcases makes.becomes with _ | ⟨_, _, nulls⟩
              exact ⟨middle, .next isNot included executes (.of_null nulls.value?_self _),
                isProgress, makes.mono (Nat.le_max_left _ _) (List.Subset.refl _)⟩
          | some value =>
              simp only [filled, Option.map_some] at ran makes
              have isAliveLater := makes.becomes.not_isDead linked makes.linked
                (Arena.lt_size_of_value? holds) isAlive nofun
              rcases ranRest : env.executeFields rest parent path progress with ⟨others, laterRest⟩
              rw [ranRest] at ran
              cases ran
              have isNewLater (entry : String × PlanNode) (member : entry ∈ rest) :
                  entry.2.responseKey ∉ OrderedMap.keys
                    (done ++ [(node.responseKey, !node.returnType.isNonNull, value)]) := by
                rw [OrderedMap.keys_append, List.mem_append, not_or]
                refine ⟨isNewRest entry member, fun same => distinct.1 ?_⟩
                have isKey : entry.2.responseKey = node.responseKey := List.mem_singleton.mp same
                exact isKey ▸ List.mem_map_of_mem (f := fun entry => entry.2.responseKey) member
              have ranMiddle : env.executeFields rest parent path middle.progress =
                  env.executeFields rest parent path progress := by rw [isProgress]
              rcases executeFields_mirrors rest keyedRest parent makes.linked isAliveLater makes.shows
                isNewLater (ranMiddle.trans ranRest) with
                ⟨after, executesRest, isProgressRest, makesRest⟩
              refine ⟨after, .next isNot included executes executesRest, isProgressRest, ?_⟩
              have first := makes.mono (Nat.le_max_left (PlanNode.places node)
                (PlanNode.childrenPlaces rest)) (List.Subset.refl _)
              have second := makesRest.mono (Nat.le_max_right (PlanNode.places node)
                (PlanNode.childrenPlaces rest)) (List.Subset.refl _)
              have makesAll := first.trans second (List.disjoint_nil_left _) nofun
              simpa [Option.map_map, Function.comp_def] using makesAll

end

end Machine
end GraphQL

import GraphQL.Proofs.Execution.Operation
import GraphQL.Proofs.Execution.Rounds

/-!
# Outcomes of operations

When an operation has been executed nothing waits, the data have the form of the included fields of
the root, and the marks lie apart. The fields of a query are executed in rounds. Those of a mutation
are executed one after the other, each in rounds, up to one that makes the data null.
-/

namespace GraphQL

variable {σ Object : Type} {env : Environment σ Object}

/-- An execution of some fields of the root is settled. -/
structure Outcome (env : Environment σ Object) (children : List PlanNode) (tree : ResponseTree)
    (progress : Progress (Record σ Object) Object) : Prop where
  root : (env.evidence [] progress).HasRoot children tree
  scattered : ∀ mark, Scattered mark [] (some tree) ((progress.yield []).paths mark)
  placed : (progress.yield []).IsPlaced progress.outside.trace
  queue : progress.queue = []

section

variable {children : List PlanNode} {base : ResponsePath} {origin : List (Occurrence Object)}
  {limit : Nat} {tree : ResponseTree} {progress after : Progress (Record σ Object) Object}

theorem Moment.outcome (moment : Moment env children base origin limit [] tree progress)
    (queue : progress.queue = []) : Outcome env children tree progress where
  root := by
    have root := moment.root
    rw [queue] at root
    exact root
  scattered mark := by
    have scattered := moment.scattered mark
    rw [queue] at scattered
    exact scattered
  placed := moment.placed
  queue := queue

/-! ## Fields together -/

theorem recordedTogether_outcome (settles : env.Settles) {top : PlanChildren} (keyed : top.IsKeyed)
    (root : ResolvedValue Object) (start : σ) :
    Outcome env (top.included env.bindings)
      (env.recordedTogether top root { outside := { outside := start } }).1
      (env.recordedTogether top root { outside := { outside := start } }).2 ∧
    InRounds env (top.included env.bindings) [] []
      (env.recordedTogether top root { outside := { outside := start } }).2.outside.trace := by
  let before : Progress (Record σ Object) Object := { outside := { outside := start } }
  let first := env.recorded.executeFields top root [] before
  have distinct : ((top.included env.bindings).map PlanNode.responseKey).Nodup := by
    rcases keyed with ⟨distinct, _⟩
    exact distinct.sublist (top.included_keys_sublist env.bindings)
  rcases @executeFields_makesAll_of_keyed _ _ env _ keyed _ (Nat.le_refl _) root [] before
      (.inl rfl) with
    ⟨yield, all⟩
  have makes := all.object (fun fields => executeFields_some_heads) distinct
  have trace : first.2.outside.trace = yield.calls.map .resolved := makes.leads.trace
  have queue : first.2.queue = yield.tasks := makes.leads.queue
  have marks : ∀ mark, (first.2.yield first.2.queue).paths mark = yield.paths mark := by
    intro mark
    have all := makes.leads.paths [] mark
    rw [List.nil_append, ← queue] at all
    rw [all]
    cases mark <;> rfl
  have moment : Moment env (top.included env.bindings) [] ([] ++ yield.calls.map .resolved)
      (PlanNode.childrenPlaces top) [] ((first.1.map .object).getD .null) first.2 := by
    refine ⟨?_, ?_, ?_, ?_, ?_⟩
    · rw [List.nil_append, queue]
      exact makes.fits.hasRoot
    · intro mark
      rw [List.nil_append, marks]
      exact (makes.scattered mark).getD
    · have placed : (before.yield []).IsPlaced before.outside.trace :=
        ⟨by simp [Progress.yield, before], by simp [Progress.yield, before]⟩
      exact makes.leads.isPlaced placed makes.sound.placed
    · rw [queue]
      exact fun task member => ⟨makes.sound.tasks task member, List.nil_prefix⟩
    · rw [trace]
      exact List.Subset.refl _
  have start : first.2.outside.trace = [] ++ yield.calls.map .resolved := trace
  rcases moment.settle settles start with
    ⟨rest, settled, _, inRounds, empty, last, final⟩
  refine ⟨final.outcome empty, ?_⟩
  have whole : (env.recordedTogether top root before).2.outside.trace =
      yield.calls.map .resolved ++ rest := settled.trans (by rw [trace])
  rw [whole]
  exact inRounds

/-! ## Fields in turn -/

theorem sight_addField {fields : List (String × Bool × ResponseTree)} {key : String}
    {nullable : Bool} {made : Option ResponseTree} (rest : ResponsePath) :
    (Environment.addField (.object fields) key nullable made).sight (.field key :: rest) =
      ResponseTree.sightIn made rest := by
  rw [← ResponseTree.sightIn_filled nullable]
  unfold Environment.addField
  cases ResponseTree.filled nullable made with
  | none => exact ResponseTree.sight_null _
  | some value =>
      have found : (ResponseTree.object (OrderedMap.insert fields key (nullable, value))).branch?
          (.field key) = some (nullable, value) := OrderedMap.find?_insert_self _ _ _
      exact ResponseTree.sight_of_branch? found rest

theorem sight_addField_of_ne {fields : List (String × Bool × ResponseTree)} {key : String}
    {nullable : Bool} {made : Option ResponseTree} {path : ResponsePath}
    (elsewhere : ¬[.field key] <+: path) :
    (Environment.addField (.object fields) key nullable made).sight path =
        (ResponseTree.object fields).sight path ∨
      (Environment.addField (.object fields) key nullable made).sight path = .nulled := by
  unfold Environment.addField
  cases ResponseTree.filled nullable made with
  | none => exact .inr (ResponseTree.sight_null path)
  | some value =>
      left
      rcases path with _ | ⟨segment, rest⟩
      · rfl
      · have different : PathSegment.field key ≠ segment := by
          rintro rfl
          exact elsewhere (by simp)
        simp only
        rw [ResponseTree.sight_cons (by simp), ResponseTree.sight_cons (by simp)]
        rcases segment with other | position
        · have apart : key ≠ other := fun same => different (congrArg _ same)
          simp only [ResponseTree.branch?, OrderedMap.find?_insert_of_ne _ _ apart]
        · rfl

/-- Adding a field keeps the marks apart. -/
theorem Scattered.addField {mark : Mark} {fields : List (String × Bool × ResponseTree)}
    {key : String} {nullable : Bool} {made : Option ResponseTree} {paths others : List ResponsePath}
    (scattered : Scattered mark [] (some (.object fields)) paths)
    (isNew : key ∉ OrderedMap.keys fields) (new : Scattered mark [.field key] made others) :
    Scattered mark [] (some (Environment.addField (.object fields) key nullable made))
      (paths ++ others) := by
  have outside : ∀ path ∈ paths, ¬[.field key] <+: path := by
    rintro path member ⟨rest, rfl⟩
    rcases scattered.below _ member with ⟨further, same, allowed⟩
    rw [List.nil_append] at same
    subst same
    have missing : (ResponseTree.object fields).branch? (.field key) = none :=
      OrderedMap.find?_eq_none_iff.mpr isNew
    have unseen : (ResponseTree.object fields).sight ([.field key] ++ rest) = .unseen :=
      ResponseTree.sight_of_no_branch (by simp) missing rest
    exact mark.not_allows_unseen (unseen ▸ allowed)
  constructor
  · rw [List.nodup_append]
    refine ⟨scattered.distinct, new.distinct, ?_⟩
    rintro path member other otherMem rfl
    exact outside path member (new.isPrefix otherMem)
  · intro path member
    refine ⟨path, rfl, ?_⟩
    change mark.Allows (ResponseTree.sight _ path)
    rcases List.mem_append.mp member with member | member
    · rcases scattered.below path member with ⟨rest, same, allowed⟩
      rw [List.nil_append] at same
      subst same
      rcases @sight_addField_of_ne _ _ nullable made _ (outside path member) with same | isNulled
      · rw [same]
        exact allowed
      · rw [isNulled]
        exact mark.allows_nulled
    · rcases new.below path member with ⟨rest, rfl, allowed⟩
      rw [List.singleton_append, sight_addField]
      exact allowed

/-- Adding a field adds its node. -/
theorem Evidence.HasFields.addField {known later : Evidence Object} {done : List PlanNode}
    {fields : List (String × Bool × ResponseTree)} {node : PlanNode} {made : Option ResponseTree}
    (has : known.HasFields [] done fields) (more : known.Extends later)
    (tasks : known.tasks ⊆ later.tasks)
    (position : Position later.trace [.field node.responseKey] node node.returnType)
    (fits : later.Fits node node.returnType [.field node.responseKey] made)
    (isNew : node.responseKey ∉ OrderedMap.keys fields) :
    later.HasRoot (done ++ [node]) (Environment.addField (.object fields) node.responseKey
      (!node.returnType.isNonNull) made) := by
  have still := has.mono more fun task member _ _ _ => tasks member
  unfold Environment.addField
  cases isFilled : ResponseTree.filled (!node.returnType.isNonNull) made with
  | none =>
      have fails : later.FailsBelow [] := fits.fails position isFilled
      exact .null fails
  | some value =>
      simp only
      rw [OrderedMap.insert_of_not_mem isNew]
      have known : ∀ child ∈ done, child.responseKey ≠ node.responseKey := by
        intro child member same
        apply isNew
        rw [ResponseTree.keys_of_heads has.heads, ← same]
        exact List.mem_map_of_mem member
      refine .object ⟨?_, ?_, ?_, ?_⟩
      · have heads := has.heads
        simp only [ResponseTree.heads] at heads ⊢
        simp [heads, PlanNode.head]
      · have keys : OrderedMap.keys (fields ++ [(node.responseKey, !node.returnType.isNonNull,
            value)]) = OrderedMap.keys fields ++ [node.responseKey] := by simp [OrderedMap.keys]
        rw [keys, List.nodup_append]
        refine ⟨has.distinct, List.nodup_singleton _, ?_⟩
        rintro key member other isLast rfl
        exact isNew (List.mem_singleton.mp isLast ▸ member)
      · intro child member
        rcases List.mem_append.mp member with member | member
        · exact still.resolved child member
        · cases List.mem_singleton.mp member
          exact @Position.exists_resolved _ _ [] _ _ _ position
      · intro child member tree field
        rcases List.mem_append.mp field with field | field
        · rcases List.mem_append.mp member with member | member
          · exact still.each child member tree field
          · cases List.mem_singleton.mp member
            exact absurd (List.mem_map_of_mem (f := Prod.fst) field) isNew
        · have same := List.mem_singleton.mp field
          rcases List.mem_append.mp member with member | member
          · exact absurd (congrArg Prod.fst same) (known child member)
          · cases List.mem_singleton.mp member
            cases same
            exact fits.filled isFilled

/-- Executing the next field of the root and adding what it makes. -/
theorem Outcome.addField {done : List PlanNode} {node : PlanNode} {yield : Yield Object}
    {made : Option ResponseTree} (outcome : Outcome env done tree progress)
    (isLive : tree.isLive [] = true)
    (isNew : node.responseKey ∉ done.map PlanNode.responseKey)
    (called : ∃ call ∈ yield.calls, call.node = node ∧ call.path = [.field node.responseKey])
    (makes : yield.Makes env [] limit [.field node.responseKey]
      (fun known made => known.Fits node node.returnType [.field node.responseKey] made) progress
      (made, after)) :
    Moment env (done ++ [node]) [.field node.responseKey] ([] ++ yield.calls.map .resolved) limit []
      (Environment.addField tree node.responseKey (!node.returnType.isNonNull) made) after := by
  have leads := makes.leads
  have queue : after.queue = yield.tasks := by rw [leads.queue, outcome.queue, List.nil_append]
  rcases outcome with ⟨root, scattered, placed, empty⟩
  cases root with
  | null fails => simp [ResponseTree.isLive, ResponseTree.at?] at isLive
  | @object fields has =>
      have isNew : node.responseKey ∉ OrderedMap.keys fields := by
        rwa [ResponseTree.keys_of_heads has.heads]
      refine ⟨?_, ?_, ?_, ?_, ?_⟩
      · refine has.addField leads.extends (List.nil_subset _) (leads.position called)
          (makes.fits.mono (Yield.Leads.refl after).extends ?_) isNew
        change yield.tasks ⊆ [] ++ after.queue
        rw [queue]
        exact List.Subset.refl _
      · intro mark
        rw [List.nil_append, queue, ← List.nil_append yield.tasks, leads.paths]
        exact (scattered mark).addField isNew (makes.scattered mark)
      · exact leads.isPlaced placed makes.sound.placed
      · intro task member
        rw [queue] at member
        exact ⟨makes.sound.tasks task member,
          (makes.scattered .task).isPrefix (List.mem_map_of_mem member)⟩
      · rw [leads.trace]
        exact List.subset_append_right _ _

/-- A trace goes through fields of the root in turn if what happens for each of them is in rounds,
concerns nothing but the field, and comes before what happens for the next, until no fields are left
or the data are null. `done` are the fields before, and `past` is what happened for them. -/
inductive InTurn (env : Environment σ Object) (final : ResponseTree) :
    List PlanNode → List (Occurrence Object) → List PlanNode → List (Occurrence Object) → Prop where
  | stop {done rest : List PlanNode} {past : List (Occurrence Object)}
      (ended : rest = [] ∨ final = .null) : InTurn env final done past rest []
  | field {done rest : List PlanNode} {node : PlanNode}
      {past block later : List (Occurrence Object)}
      (rounds : InRounds env (done ++ [node]) past [] block)
      (concerns : ∀ occurrence ∈ block, occurrence.IsBelow [.field node.responseKey])
      (further : InTurn env final (done ++ [node]) (past ++ block) rest later) :
      InTurn env final done past (node :: rest) (block ++ later)

theorem recordedInTurn_cons (bound : Nat) (root : ResolvedValue Object) (key : String)
    (node : PlanNode) (rest : PlanChildren) (tree : ResponseTree)
    (progress : Progress (Record σ Object) Object) :
    env.recordedInTurn bound root ((key, node) :: rest) tree progress =
      if !tree.isLive [] then (tree, progress)
      else if !node.isIncluded env.bindings then
        env.recordedInTurn bound root rest tree progress
      else
        let first := env.recorded.executeField node root [.field node.responseKey] progress
        let added := Environment.addField tree node.responseKey (!node.returnType.isNonNull) first.1
        let settled := env.recordedSettle bound added first.2
        env.recordedInTurn bound root rest settled.1 settled.2 := by
  rw [Environment.recordedInTurn]
  split
  · rfl
  · split <;> rfl

/-- Executing a field of the root and settling it is in rounds and concerns nothing but the field. -/
theorem Outcome.field (settles : env.Settles) {done : List PlanNode} {node : PlanNode} {bound : Nat}
    (outcome : Outcome env done tree progress) (isLive : tree.isLive [] = true)
    (isNew : node.responseKey ∉ done.map PlanNode.responseKey) (fits : PlanNode.places node ≤ bound)
    (keyed : ∀ typed ∈ node.typedChildren, PlanChildren.IsKeyed typed.2)
    (root : ResolvedValue Object) :
    let first := env.recorded.executeField node root [.field node.responseKey] progress
    let settled := env.recordedSettle bound (Environment.addField tree node.responseKey
      (!node.returnType.isNonNull) first.1) first.2
    ∃ block, settled.2.outside.trace = progress.outside.trace ++ block ∧
      InRounds env (done ++ [node]) progress.outside.trace [] block ∧
      (∀ occurrence ∈ block, occurrence.IsBelow [.field node.responseKey]) ∧
      Outcome env (done ++ [node]) settled.1 settled.2 := by
  intro first settled
  have fields : FieldsComplete env node.typedChildren
      (env.recorded.executeTyped node.typedChildren) bound := by
    apply executeTyped_completes_of_keyed keyed
    rw [PlanNode.places_eq] at fits
    omega
  rcases executeField_makes fits keyed fields root [] progress (.inl rfl) with
    ⟨yield, called, makes⟩
  rw [List.nil_append] at called makes
  have leads : first.2.outside.trace = progress.outside.trace ++ yield.calls.map .resolved :=
    makes.leads.trace
  have moment := outcome.addField isLive isNew called makes
  rcases moment.settle settles leads with ⟨rest, further, below, inRounds, empty, last, final⟩
  refine ⟨yield.calls.map .resolved ++ rest, ?_, inRounds, ?_, final.outcome empty⟩
  · rw [← List.append_assoc, ← leads]
    exact further
  · intro occurrence member
    rcases List.mem_append.mp member with member | member
    · rcases List.mem_map.mp member with ⟨call, isCall, rfl⟩
      exact (makes.scattered .call).isPrefix (List.mem_map_of_mem isCall)
    · exact below occurrence member

/-- Once the root is null, nothing more is asked of the fields. -/
theorem Outcome.of_not_live {done : List PlanNode} (outcome : Outcome env done tree progress)
    (isLive : ¬tree.isLive [] = true) (children : List PlanNode) :
    tree = .null ∧ Outcome env children tree progress := by
  rcases outcome with ⟨root, scattered, placed, queue⟩
  cases root with
  | object has => exact absurd rfl isLive
  | null fails => exact ⟨rfl, .null fails, scattered, placed, queue⟩

theorem recordedInTurn_outcome (settles : env.Settles) {bound : Nat}
    {rest : PlanChildren} {done : List PlanNode}
    (distinct : ((done ++ rest.included env.bindings).map PlanNode.responseKey).Nodup)
    (keyed : ∀ entry ∈ rest, ∀ typed ∈ entry.2.typedChildren, PlanChildren.IsKeyed typed.2)
    (bounded : ∀ entry ∈ rest, PlanNode.places entry.2 ≤ bound)
    (outcome : Outcome env done tree progress) (root : ResolvedValue Object) :
    ∃ trace, (env.recordedInTurn bound root rest tree progress).2.outside.trace =
        progress.outside.trace ++ trace ∧
      Outcome env (done ++ rest.included env.bindings)
        (env.recordedInTurn bound root rest tree progress).1
        (env.recordedInTurn bound root rest tree progress).2 ∧
      InTurn env (env.recordedInTurn bound root rest tree progress).1 done
        progress.outside.trace (rest.included env.bindings) trace := by
  induction rest generalizing done tree progress with
  | nil =>
      refine ⟨[], (List.append_nil _).symm, ?_, .stop (.inl rfl)⟩
      rw [PlanChildren.included, List.filter_nil, List.map_nil, List.append_nil]
      exact outcome
  | cons entry rest ih =>
      rcases entry with ⟨key, node⟩
      have later : ∀ entry ∈ rest, ∀ typed ∈ entry.2.typedChildren, PlanChildren.IsKeyed typed.2 :=
        fun entry member => keyed entry (List.mem_cons_of_mem _ member)
      have fewer : ∀ entry ∈ rest, PlanNode.places entry.2 ≤ bound :=
        fun entry member => bounded entry (List.mem_cons_of_mem _ member)
      rw [recordedInTurn_cons]
      by_cases isLive : tree.isLive [] = true
      · rw [if_neg (by simp [isLive]), PlanChildren.included_cons]
        rw [PlanChildren.included_cons] at distinct
        cases included : node.isIncluded env.bindings with
        | false =>
            simp only [included, Bool.false_eq_true, if_false] at distinct
            exact ih distinct later fewer outcome
        | true =>
            simp only [included, if_true] at distinct
            have isNew : node.responseKey ∉ done.map PlanNode.responseKey := by
              rw [List.map_append, List.nodup_append] at distinct
              exact fun member => distinct.2.2 _ member _ List.mem_cons_self rfl
            rw [Bool.not_true, if_neg Bool.false_ne_true, if_pos rfl]
            rcases outcome.field settles isLive isNew (bounded (key, node) List.mem_cons_self)
                (keyed (key, node) List.mem_cons_self) root with
              ⟨block, settled, inRounds, concerns, next⟩
            rw [List.append_cons done node] at distinct ⊢
            rcases ih distinct later fewer next with ⟨trace, further, outcome, inTurn⟩
            rw [settled] at further inTurn
            refine ⟨block ++ trace, ?_, outcome, .field inRounds concerns inTurn⟩
            rw [← List.append_assoc]
            exact further
      · rw [if_pos (by simp [isLive])]
        rcases outcome.of_not_live isLive (done ++ PlanChildren.included ((key, node) :: rest)
          env.bindings) with ⟨isNull, ended⟩
        exact ⟨[], (List.append_nil _).symm, ended, .stop (.inr isNull)⟩

theorem Outcome.initial (start : σ) :
    Outcome env [] (.object []) { outside := { outside := start } } where
  root := .object ⟨rfl, List.nodup_nil, by simp, by simp⟩
  scattered mark := by cases mark <;> exact .nil
  placed := ⟨by simp [Progress.yield], by simp [Progress.yield]⟩
  queue := rfl

theorem recordedMutation_outcome (settles : env.Settles) {top : PlanChildren} (keyed : top.IsKeyed)
    (root : ResolvedValue Object) (start : σ) :
    let run := env.recordedInTurn (PlanNode.childrenPlaces top) root top (.object [])
      { outside := { outside := start } }
    Outcome env (top.included env.bindings) run.1 run.2 ∧
      InTurn env run.1 [] [] (top.included env.bindings) run.2.outside.trace := by
  intro run
  rcases keyed with ⟨distinct, inner⟩
  rcases recordedInTurn_outcome settles
      (distinct.sublist (top.included_keys_sublist env.bindings)) inner
      (fun entry member => PlanNode.places_le member) (Outcome.initial start) root with
    ⟨trace, whole, outcome, inTurn⟩
  have same : run.2.outside.trace = trace := whole
  rw [same]
  exact ⟨outcome, inTurn⟩

/-- After some fields come the others. -/
theorem recordedInTurn_append (bound : Nat) (root : ResolvedValue Object)
    (front back : PlanChildren) (tree : ResponseTree)
    (progress : Progress (Record σ Object) Object) :
    env.recordedInTurn bound root (front ++ back) tree progress =
      env.recordedInTurn bound root back (env.recordedInTurn bound root front tree progress).1
        (env.recordedInTurn bound root front tree progress).2 := by
  induction front generalizing tree progress with
  | nil => rfl
  | cons entry rest ih =>
      rcases entry with ⟨key, node⟩
      rw [List.cons_append, recordedInTurn_cons, recordedInTurn_cons]
      cases isLive : tree.isLive [] with
      | true =>
          simp only [Bool.not_true, Bool.false_eq_true, if_false]
          cases node.isIncluded env.bindings with
          | false => exact ih _ _
          | true => exact ih _ _
      | false =>
          simp only [Bool.not_false, if_true]
          cases back with
          | nil => rfl
          | cons next back =>
              rcases next with ⟨nextKey, next⟩
              rw [recordedInTurn_cons]
              simp only [isLive, Bool.not_false, if_true]

/-- Nothing is executed once the data are null. -/
theorem recordedInTurn_null (bound : Nat) (root : ResolvedValue Object) (children : PlanChildren)
    (progress : Progress (Record σ Object) Object) :
    env.recordedInTurn bound root children .null progress = (.null, progress) := by
  cases children with
  | nil => rfl
  | cons entry rest =>
      rcases entry with ⟨key, node⟩
      rw [recordedInTurn_cons]
      rfl

/-! ## Operations -/

/-- An operation that has been executed is settled. -/
theorem recordedOperation_outcome (settles : env.Settles) {operation : PlanOperation}
    (keyed : operation.children.IsKeyed) (root : ResolvedValue Object) (start : σ) :
    Outcome env (operation.children.included env.bindings)
      (env.recordedOperation operation root { outside := { outside := start } }).1
      (env.recordedOperation operation root { outside := { outside := start } }).2 := by
  have together := (recordedTogether_outcome settles keyed root start).1
  unfold Environment.recordedOperation
  cases operation.kind with
  | query => exact together
  | subscription => exact together
  | mutation =>
      rcases recordedMutation_outcome settles keyed root start with ⟨outcome, _⟩
      exact outcome

end

end GraphQL

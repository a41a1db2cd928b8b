import GraphQL.Proofs.Execution.Arena
import GraphQL.Proofs.Execution.Verdicts

/-!
# Executing over slots

An execution can keep its response in an arena. A value is completed for a slot, which was made for
it; a failure makes slots null; a list or object stops when its slot is dead; and tasks are done in
rounds for as long as some wait. No loop has a bound of its own. The relations here lead from a state
to the one in which all loops on the way have ended.
-/

namespace GraphQL

/-- A lazy value and the slot that waits for it. -/
structure SlotTask (Object : Type) where
  slot : Nat
  task : Task Object

/-- The state of an execution over slots. -/
structure Machine (σ Object : Type) where
  arena : Arena
  outside : σ
  errors : List FieldError := []
  queue : List (SlotTask Object) := []

variable {σ Object : Type}

namespace Machine

/-- There is only a root, which is an object without fields. -/
def start (outside : σ) : Machine σ Object where
  arena := ⟨[{ parent := none, nullable := true, value := .object [] }]⟩
  outside

/-- What a state has apart from its slots. -/
def progress (machine : Machine σ Object) : Progress σ Object where
  outside := machine.outside
  errors := machine.errors
  queue := machine.queue.map SlotTask.task

def write (machine : Machine σ Object) (slot : Nat) (value : SlotValue) : Machine σ Object :=
  { machine with arena := machine.arena.write slot value }

def postpone (machine : Machine σ Object) (slot : Nat) (task : Task Object) : Machine σ Object :=
  { machine with queue := machine.queue ++ [{ slot, task }] }

/-- Makes a slot a list with a new slot for every item. -/
def openItems (machine : Machine σ Object) (slot : Nat) (nullable : Bool) (count : Nat) :
    Machine σ Object :=
  { machine with
    arena := (machine.arena.alloc slot nullable count).write slot
      (.list (machine.arena.next count)) }

/-- Adds a new slot for a field to an object. -/
def openField (machine : Machine σ Object) (slot : Nat) (node : PlanNode) : Machine σ Object :=
  { machine with
    arena := (machine.arena.alloc slot (!node.returnType.isNonNull) 1).addField slot
      node.responseKey machine.arena.size }

/-- Records an error of a field, whose slot becomes null. -/
inductive Fails (slot : Nat) (node : PlanNode) (path : ResponsePath) (error : ExecutionError) :
    Machine σ Object → Machine σ Object → Prop where
  | intro {machine : Machine σ Object} {arena : Arena} (nulls : machine.arena.Nulls slot arena) :
      Fails slot node path error machine
        { machine with
          arena
          errors := machine.errors ++
            [(error.toFieldError.withPath path).withLocations node.locations] }

theorem Fails.unique {slot : Nat} {node : PlanNode} {path : ResponsePath} {error : ExecutionError}
    {machine after other : Machine σ Object} (first : Fails slot node path error machine after)
    (second : Fails slot node path error machine other) : after = other := by
  rcases first with ⟨nulls⟩
  rcases second with ⟨nullsOther⟩
  rw [nulls.unique nullsOther]

end Machine

namespace Environment

variable (env : Environment σ Object)

/-! ## Values -/

mutual

/-- A value is completed for a slot. -/
inductive Completes : Nat → PlanNode → TypeRef → ResolvedValue Object → ResponsePath →
    Machine σ Object → Machine σ Object → Prop where
  | lazy {slot : Nat} {node : PlanNode} {type : TypeRef} {value : ResolvedValue Object}
      {path : ResponsePath} {machine : Machine σ Object} (isLazy : env.isLazy value = true) :
      Completes slot node type value path machine
        (machine.postpone slot { path, node, type, value })
  | eager {slot : Nat} {node : PlanNode} {type : TypeRef} {value : ResolvedValue Object}
      {path : ResponsePath} {machine after : Machine σ Object} {verdict : Verdict Object}
      {outside : σ} (isEager : env.isLazy value = false)
      (asked : env.verdict node type value machine.outside = (verdict, outside))
      (fills : Fills slot node value path verdict { machine with outside } after) :
      Completes slot node type value path machine after

/-- A slot is filled as the verdict on its value says. -/
inductive Fills : Nat → PlanNode → ResolvedValue Object → ResponsePath → Verdict Object →
    Machine σ Object → Machine σ Object → Prop where
  | failure {slot : Nat} {node : PlanNode} {value : ResolvedValue Object} {path : ResponsePath}
      {machine after : Machine σ Object} {error : ExecutionError}
      (fails : Machine.Fails slot node path error machine after) :
      Fills slot node value path (.failure error) machine after
  | null {slot : Nat} {node : PlanNode} {value : ResolvedValue Object} {path : ResponsePath}
      {machine : Machine σ Object} :
      Fills slot node value path .null machine (machine.write slot .null)
  | leaf {slot : Nat} {node : PlanNode} {value : ResolvedValue Object} {path : ResponsePath}
      {machine : Machine σ Object} {json : Json} :
      Fills slot node value path (.leaf json) machine (machine.write slot (.leaf json))
  | list {slot : Nat} {node : PlanNode} {value : ResolvedValue Object} {path : ResponsePath}
      {machine after : Machine σ Object} {item : TypeRef} {items : List (ResolvedValue Object)}
      (completes : CompletesItems slot node item path 0
        ((machine.arena.next items.length).zip items)
        (machine.openItems slot (!item.isNonNull) items.length) after) :
      Fills slot node value path (.list item items) machine after
  | unselected {slot : Nat} {node : PlanNode} {value : ResolvedValue Object} {path : ResponsePath}
      {machine : Machine σ Object} {type : String}
      (selected : OrderedMap.find? node.typedChildren type = none) :
      Fills slot node value path (.object type) machine (machine.write slot (.object []))
  | object {slot : Nat} {node : PlanNode} {value : ResolvedValue Object} {path : ResponsePath}
      {machine after : Machine σ Object} {type : String} {children : PlanChildren}
      (selected : OrderedMap.find? node.typedChildren type = some children)
      (executes : ExecutesFields slot children value path (machine.write slot (.object [])) after) :
      Fills slot node value path (.object type) machine after

/-- The items of a list are completed one after the other, until the list is dead. -/
inductive CompletesItems : Nat → PlanNode → TypeRef → ResponsePath → Nat →
    List (Nat × ResolvedValue Object) → Machine σ Object → Machine σ Object → Prop where
  | done {slot : Nat} {node : PlanNode} {item : TypeRef} {path : ResponsePath} {position : Nat}
      {machine : Machine σ Object} : CompletesItems slot node item path position [] machine machine
  | dead {slot : Nat} {node : PlanNode} {item : TypeRef} {path : ResponsePath} {position : Nat}
      {entry : Nat × ResolvedValue Object} {rest : List (Nat × ResolvedValue Object)}
      {machine : Machine σ Object} (isDead : machine.arena.Climbs (some slot) true) :
      CompletesItems slot node item path position (entry :: rest) machine machine
  | next {slot : Nat} {node : PlanNode} {item : TypeRef} {path : ResponsePath} {position : Nat}
      {inner : Nat} {value : ResolvedValue Object} {rest : List (Nat × ResolvedValue Object)}
      {machine middle after : Machine σ Object}
      (isAlive : machine.arena.Climbs (some slot) false)
      (completes : Completes inner node item value (path ++ [.index position]) machine middle)
      (others : CompletesItems slot node item path (position + 1) rest middle after) :
      CompletesItems slot node item path position ((inner, value) :: rest) machine after

/-- The included fields of an object are executed one after the other, until the object is null. -/
inductive ExecutesFields : Nat → List (String × PlanNode) → ResolvedValue Object → ResponsePath →
    Machine σ Object → Machine σ Object → Prop where
  | done {slot : Nat} {parent : ResolvedValue Object} {path : ResponsePath}
      {machine : Machine σ Object} : ExecutesFields slot [] parent path machine machine
  | nulled {slot : Nat} {parent : ResolvedValue Object} {path : ResponsePath}
      {entry : String × PlanNode} {rest : List (String × PlanNode)} {machine : Machine σ Object}
      (isNull : machine.arena.value? slot = some .null) :
      ExecutesFields slot (entry :: rest) parent path machine machine
  | skipped {slot : Nat} {parent : ResolvedValue Object} {path : ResponsePath} {key : String}
      {node : PlanNode} {rest : List (String × PlanNode)} {machine after : Machine σ Object}
      (isNot : machine.arena.value? slot ≠ some .null)
      (excluded : node.isIncluded env.bindings = false)
      (others : ExecutesFields slot rest parent path machine after) :
      ExecutesFields slot ((key, node) :: rest) parent path machine after
  | next {slot : Nat} {parent : ResolvedValue Object} {path : ResponsePath} {key : String}
      {node : PlanNode} {rest : List (String × PlanNode)} {machine middle after : Machine σ Object}
      (isNot : machine.arena.value? slot ≠ some .null)
      (included : node.isIncluded env.bindings = true)
      (executes : ExecutesField slot node parent path machine middle)
      (others : ExecutesFields slot rest parent path middle after) :
      ExecutesFields slot ((key, node) :: rest) parent path machine after

/-- A field of an object is resolved, and its value completed for a new slot. -/
inductive ExecutesField : Nat → PlanNode → ResolvedValue Object → ResponsePath →
    Machine σ Object → Machine σ Object → Prop where
  | resolved {slot : Nat} {node : PlanNode} {parent value : ResolvedValue Object}
      {path : ResponsePath} {machine after : Machine σ Object} {outside : σ}
      (asked : env.resolve node parent (path ++ [.field node.responseKey]) machine.outside =
        (.ok value, outside))
      (completes : Completes machine.arena.size node node.returnType value
        (path ++ [.field node.responseKey]) { machine.openField slot node with outside } after) :
      ExecutesField slot node parent path machine after
  | failed {slot : Nat} {node : PlanNode} {parent : ResolvedValue Object} {path : ResponsePath}
      {machine after : Machine σ Object} {error : ExecutionError} {outside : σ}
      (asked : env.resolve node parent (path ++ [.field node.responseKey]) machine.outside =
        (.error error, outside))
      (fails : Machine.Fails machine.arena.size node (path ++ [.field node.responseKey]) error
        { machine.openField slot node with outside } after) :
      ExecutesField slot node parent path machine after

end

variable {env} {slot : Nat} {node : PlanNode} {item : TypeRef} {path : ResponsePath}
  {position : Nat} {parent : ResolvedValue Object} {machine : Machine σ Object}

/-- Nothing is done about the items of a list that is dead. -/
theorem CompletesItems.of_dead (isDead : machine.arena.Climbs (some slot) true)
    (entries : List (Nat × ResolvedValue Object)) :
    env.CompletesItems slot node item path position entries machine machine := by
  cases entries with
  | nil => exact .done
  | cons entry rest => exact .dead isDead

/-- Nothing is done about the fields of an object that is null. -/
theorem ExecutesFields.of_null (isNull : machine.arena.value? slot = some .null)
    (children : List (String × PlanNode)) :
    env.ExecutesFields slot children parent path machine machine := by
  cases children with
  | nil => exact .done
  | cons entry rest => exact .nulled isNull

/-! ## Rounds -/

variable (env)

/-- Forces the values of some tasks, in order. -/
def forceEach : List (SlotTask Object) →
    StateM σ (List (SlotTask Object × Except ExecutionError (ResolvedValue Object)))
  | [] => return []
  | entry :: rest => do
      let forced ← env.force entry.task.value
      return (entry, forced) :: (← forceEach rest)

/-- The tasks that are left without those whose slots are dead. -/
inductive Retains (arena : Arena) : List (SlotTask Object) → List (SlotTask Object) → Prop where
  | nil : Retains arena [] []
  | keep {entry : SlotTask Object} {rest kept : List (SlotTask Object)}
      (isAlive : arena.Climbs (some entry.slot) false) (others : Retains arena rest kept) :
      Retains arena (entry :: rest) (entry :: kept)
  | drop {entry : SlotTask Object} {rest kept : List (SlotTask Object)}
      (isDead : arena.Climbs (some entry.slot) true) (others : Retains arena rest kept) :
      Retains arena (entry :: rest) kept

/-- Tasks are finished in order, except for those whose slots are dead when it is their turn. -/
inductive Finishes :
    List (SlotTask Object × Except ExecutionError (ResolvedValue Object)) →
      Machine σ Object → Machine σ Object → Prop where
  | done {machine : Machine σ Object} : Finishes [] machine machine
  | dead {entry : SlotTask Object} {forced : Except ExecutionError (ResolvedValue Object)}
      {rest : List (SlotTask Object × Except ExecutionError (ResolvedValue Object))}
      {machine after : Machine σ Object} (isDead : machine.arena.Climbs (some entry.slot) true)
      (others : Finishes rest machine after) : Finishes ((entry, forced) :: rest) machine after
  | completed {entry : SlotTask Object} {value : ResolvedValue Object}
      {rest : List (SlotTask Object × Except ExecutionError (ResolvedValue Object))}
      {machine middle after : Machine σ Object}
      (isAlive : machine.arena.Climbs (some entry.slot) false)
      (completes : env.Completes entry.slot entry.task.node entry.task.type value entry.task.path
        machine middle)
      (others : Finishes rest middle after) : Finishes ((entry, .ok value) :: rest) machine after
  | failed {entry : SlotTask Object} {error : ExecutionError}
      {rest : List (SlotTask Object × Except ExecutionError (ResolvedValue Object))}
      {machine middle after : Machine σ Object}
      (isAlive : machine.arena.Climbs (some entry.slot) false)
      (fails : Machine.Fails entry.slot entry.task.node entry.task.path error machine middle)
      (others : Finishes rest middle after) : Finishes ((entry, .error error) :: rest) machine after

/-- Rounds are done until no task waits, and that is after so many rounds or before. -/
inductive SettlesWithin : Nat → Machine σ Object → Machine σ Object → Prop where
  | settled {rounds : Nat} {machine : Machine σ Object} (isEmpty : machine.queue = []) :
      SettlesWithin rounds machine machine
  | round {rounds : Nat} {machine middle after : Machine σ Object}
      {alive : List (SlotTask Object)}
      {forced : List (SlotTask Object × Except ExecutionError (ResolvedValue Object))} {outside : σ}
      (isNot : machine.queue ≠ []) (retains : Retains machine.arena machine.queue alive)
      (forces : env.forceEach alive machine.outside = (forced, outside))
      (finishes : env.Finishes forced { machine with outside, queue := [] } middle)
      (others : SettlesWithin rounds middle after) : SettlesWithin (rounds + 1) machine after

/-! ## Operations -/

/-- Fields of the root are executed one after the other, each settled in so many rounds before the
next, until the root is dead. -/
inductive ExecutesInTurn (rounds : Nat) (root : ResolvedValue Object) :
    List (String × PlanNode) → Machine σ Object → Machine σ Object → Prop where
  | done {machine : Machine σ Object} : ExecutesInTurn rounds root [] machine machine
  | dead {entry : String × PlanNode} {rest : List (String × PlanNode)} {machine : Machine σ Object}
      (isDead : machine.arena.Climbs (some 0) true) :
      ExecutesInTurn rounds root (entry :: rest) machine machine
  | skipped {key : String} {node : PlanNode} {rest : List (String × PlanNode)}
      {machine after : Machine σ Object} (isAlive : machine.arena.Climbs (some 0) false)
      (excluded : node.isIncluded env.bindings = false)
      (others : ExecutesInTurn rounds root rest machine after) :
      ExecutesInTurn rounds root ((key, node) :: rest) machine after
  | next {key : String} {node : PlanNode} {rest : List (String × PlanNode)}
      {machine executed settled after : Machine σ Object}
      (isAlive : machine.arena.Climbs (some 0) false)
      (included : node.isIncluded env.bindings = true)
      (executes : env.ExecutesField 0 node root [] machine executed)
      (settles : env.SettlesWithin rounds executed settled)
      (others : ExecutesInTurn rounds root rest settled after) :
      ExecutesInTurn rounds root ((key, node) :: rest) machine after

/-- An operation is executed; whenever it is settled, that takes at most so many rounds. -/
inductive Executes (rounds : Nat) (operation : PlanOperation) (root : ResolvedValue Object) :
    Machine σ Object → Machine σ Object → Prop where
  | inTurn {machine after : Machine σ Object} (isMutation : operation.kind = .mutation)
      (executes : env.ExecutesInTurn rounds root operation.children machine after) :
      Executes rounds operation root machine after
  | together {machine executed after : Machine σ Object} (isOther : operation.kind ≠ .mutation)
      (executes : env.ExecutesFields 0 operation.children root [] machine executed)
      (settles : env.SettlesWithin rounds executed after) : Executes rounds operation root machine after

/-! ## One way only -/

variable {env}

mutual

theorem Completes.unique {slot : Nat} {node : PlanNode} {type : TypeRef}
    {value : ResolvedValue Object} {path : ResponsePath} {machine after other : Machine σ Object}
    (first : env.Completes slot node type value path machine after)
    (second : env.Completes slot node type value path machine other) : after = other := by
  match first, second with
  | .lazy _, .lazy _ => rfl
  | .lazy isLazy, .eager isEager _ _ | .eager isEager _ _, .lazy isLazy =>
      cases isLazy.symm.trans isEager
  | .eager _ asked fills, .eager _ askedOther fillsOther =>
      cases asked.symm.trans askedOther
      exact fills.unique fillsOther
termination_by structural first

theorem Fills.unique {slot : Nat} {node : PlanNode} {value : ResolvedValue Object}
    {path : ResponsePath} {verdict : Verdict Object} {machine after other : Machine σ Object}
    (first : env.Fills slot node value path verdict machine after)
    (second : env.Fills slot node value path verdict machine other) : after = other := by
  match first, second with
  | .failure fails, .failure failsOther => exact fails.unique failsOther
  | .null, .null => rfl
  | .leaf, .leaf => rfl
  | .list completes, .list completesOther => exact completes.unique completesOther
  | .unselected _, .unselected _ => rfl
  | .unselected isNone, .object selected _ | .object selected _, .unselected isNone =>
      cases isNone.symm.trans selected
  | .object selected executes, .object selectedOther executesOther =>
      cases selected.symm.trans selectedOther
      exact executes.unique executesOther
termination_by structural first

theorem CompletesItems.unique {slot : Nat} {node : PlanNode} {item : TypeRef} {path : ResponsePath}
    {position : Nat} {entries : List (Nat × ResolvedValue Object)}
    {machine after other : Machine σ Object}
    (first : env.CompletesItems slot node item path position entries machine after)
    (second : env.CompletesItems slot node item path position entries machine other) :
    after = other := by
  match first, second with
  | .done, .done => rfl
  | .dead _, .dead _ => rfl
  | .dead isDead, .next isAlive _ _ | .next isAlive _ _, .dead isDead =>
      cases isDead.unique isAlive
  | .next _ completes others, .next _ completesOther othersOther =>
      cases completes.unique completesOther
      exact others.unique othersOther
termination_by structural first

theorem ExecutesFields.unique {slot : Nat} {children : List (String × PlanNode)}
    {parent : ResolvedValue Object} {path : ResponsePath} {machine after other : Machine σ Object}
    (first : env.ExecutesFields slot children parent path machine after)
    (second : env.ExecutesFields slot children parent path machine other) : after = other := by
  match first, second with
  | .done, .done => rfl
  | .nulled _, .nulled _ => rfl
  | .nulled isNull, .skipped isNot _ _ | .skipped isNot _ _, .nulled isNull
  | .nulled isNull, .next isNot _ _ _ | .next isNot _ _ _, .nulled isNull =>
      exact absurd isNull isNot
  | .skipped _ excluded _, .next _ included _ _ | .next _ included _ _, .skipped _ excluded _ =>
      cases excluded.symm.trans included
  | .skipped _ _ others, .skipped _ _ othersOther => exact others.unique othersOther
  | .next _ _ executes others, .next _ _ executesOther othersOther =>
      cases executes.unique executesOther
      exact others.unique othersOther
termination_by structural first

theorem ExecutesField.unique {slot : Nat} {node : PlanNode} {parent : ResolvedValue Object}
    {path : ResponsePath} {machine after other : Machine σ Object}
    (first : env.ExecutesField slot node parent path machine after)
    (second : env.ExecutesField slot node parent path machine other) : after = other := by
  match first, second with
  | .resolved asked completes, .resolved askedOther completesOther =>
      cases asked.symm.trans askedOther
      exact completes.unique completesOther
  | .failed asked fails, .failed askedOther failsOther =>
      cases asked.symm.trans askedOther
      exact fails.unique failsOther
  | .resolved asked _, .failed askedOther _ | .failed asked _, .resolved askedOther _ =>
      cases asked.symm.trans askedOther
termination_by structural first

end

theorem Retains.unique {arena : Arena} {entries kept other : List (SlotTask Object)}
    (first : Retains arena entries kept) (second : Retains arena entries other) : kept = other := by
  induction first generalizing other with
  | nil =>
      cases second
      rfl
  | keep isAlive _ ih =>
      cases second with
      | keep _ others => rw [ih others]
      | drop isDead _ => cases isDead.unique isAlive
  | drop isDead _ ih =>
      cases second with
      | keep isAlive _ => cases isDead.unique isAlive
      | drop _ others => exact ih others

theorem Finishes.unique
    {forced : List (SlotTask Object × Except ExecutionError (ResolvedValue Object))}
    {machine after other : Machine σ Object} (first : env.Finishes forced machine after)
    (second : env.Finishes forced machine other) : after = other := by
  induction first with
  | done =>
      cases second
      rfl
  | dead isDead _ ih =>
      cases second with
      | dead _ others => exact ih others
      | completed isAlive _ _ | failed isAlive _ _ => cases isDead.unique isAlive
  | completed isAlive completes _ ih =>
      cases second with
      | dead isDead _ => cases isDead.unique isAlive
      | completed _ completesOther others =>
          cases completes.unique completesOther
          exact ih others
  | failed isAlive fails _ ih =>
      cases second with
      | dead isDead _ => cases isDead.unique isAlive
      | failed _ failsOther others =>
          cases fails.unique failsOther
          exact ih others

theorem SettlesWithin.unique {rounds : Nat} {machine after other : Machine σ Object}
    (first : env.SettlesWithin rounds machine after)
    (second : env.SettlesWithin rounds machine other) : after = other := by
  induction first with
  | settled isEmpty =>
      cases second with
      | settled _ => rfl
      | round isNot _ _ _ _ => exact absurd isEmpty isNot
  | round isNot retains forces finishes _ ih =>
      cases second with
      | settled isEmpty => exact absurd isEmpty isNot
      | round _ retainsOther forcesOther finishesOther others =>
          cases retains.unique retainsOther
          cases forces.symm.trans forcesOther
          cases finishes.unique finishesOther
          exact ih others

theorem ExecutesInTurn.unique {rounds : Nat} {root : ResolvedValue Object}
    {children : List (String × PlanNode)} {machine after other : Machine σ Object}
    (first : env.ExecutesInTurn rounds root children machine after)
    (second : env.ExecutesInTurn rounds root children machine other) : after = other := by
  induction first with
  | done =>
      cases second
      rfl
  | dead isDead =>
      cases second with
      | dead _ => rfl
      | skipped isAlive _ _ | next isAlive _ _ _ _ => cases isDead.unique isAlive
  | skipped isAlive excluded _ ih =>
      cases second with
      | dead isDead => cases isDead.unique isAlive
      | skipped _ _ others => exact ih others
      | next _ included _ _ _ => cases excluded.symm.trans included
  | next isAlive included executes settles _ ih =>
      cases second with
      | dead isDead => cases isDead.unique isAlive
      | skipped _ excluded _ => cases excluded.symm.trans included
      | next _ _ executesOther settlesOther others =>
          cases executes.unique executesOther
          cases settles.unique settlesOther
          exact ih others

/-- An operation is executed in one way. -/
theorem Executes.unique {rounds : Nat} {operation : PlanOperation} {root : ResolvedValue Object}
    {machine after other : Machine σ Object}
    (first : env.Executes rounds operation root machine after)
    (second : env.Executes rounds operation root machine other) : after = other := by
  cases first with
  | inTurn isMutation executes =>
      cases second with
      | inTurn _ executesOther => exact executes.unique executesOther
      | together isOther _ _ => exact absurd isMutation isOther
  | together isOther executes settles =>
      cases second with
      | inTurn isMutation _ => exact absurd isMutation isOther
      | together _ executesOther settlesOther =>
          cases executes.unique executesOther
          exact settles.unique settlesOther

end Environment
end GraphQL

import GraphQL.Execution.Error
import GraphQL.Execution.Host
import GraphQL.Text.Inspection

/-!
# Batches

Inputs under one key are collected in a group until one of its members is loaded. Then the group is
closed, its inputs go to the loader together, and the next input under the key opens another group.
-/

namespace GraphQL

/-- How far a group is. -/
inductive BatchStage (Value : Type) where
  | collecting (inputs : List Json)
  | loading
  | loaded (result : Except ResolverError (List Value))

/-- Inputs that are loaded together, by the loader of the first of them. -/
structure BatchGroup (Loader Value : Type) where
  key : String
  loader : Loader
  stage : BatchStage Value

/-- All groups so far by number, and for every key the group opened last. -/
structure BatchTable (Loader Value : Type) where
  groups : List (BatchGroup Loader Value) := []
  latest : OrderedMap Nat := []

/-- The member as it is shown. -/
def BatchMember.text (member : BatchMember) : String :=
  s!"Batched \x7b key: {Text.inspect member.key}, index: {member.index} \x7d"

/-- The result of a load. A loader has to give a value for every input. -/
def checkedBatch {Value : Type} (key : String) (inputs : Nat)
    (result : Except ResolverError (List Value)) : Except ResolverError (List Value) := do
  let values ← result
  if values.length = inputs then .ok values
  else
    .error (.internal s!"batch '{key}' loaded {values.length} values for {inputs} inputs")

namespace BatchTable

variable {Loader Value : Type}

/-- The number of the open group of a key, with its inputs. -/
def openGroup? (table : BatchTable Loader Value) (key : String) : Option (Nat × List Json) := do
  let group ← table.latest.find? key
  match table.groups[group]? with
  | some { stage := .collecting inputs, .. } => return (group, inputs)
  | _ => none

def setStage (table : BatchTable Loader Value) (group : Nat) (stage : BatchStage Value) :
    BatchTable Loader Value :=
  { table with groups := table.groups.modify group fun found => { found with stage } }

/-- Adds an input to the open group of a key, or opens one with it. -/
def enqueue (table : BatchTable Loader Value) (key : String) (input : Json) (loader : Loader) :
    BatchMember × BatchTable Loader Value :=
  match table.openGroup? key with
  | some (group, inputs) =>
      (⟨key, group, inputs.length⟩, table.setStage group (.collecting (inputs ++ [input])))
  | none =>
      let group := table.groups.length
      (⟨key, group, 0⟩,
        { groups := table.groups ++ [{ key, loader, stage := .collecting [input] }]
          latest := table.latest.insert key group })

/-- How many inputs wait in the open group of a key. -/
def waiting (table : BatchTable Loader Value) (key : String) : Nat :=
  match table.openGroup? key with
  | some (_, inputs) => inputs.length
  | none => 0

end BatchTable

end GraphQL

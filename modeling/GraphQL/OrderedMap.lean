/-!
# Ordered maps

Values under names, in the order in which the names were first inserted. Inserting under a name that
is already there replaces its value and leaves it at its place, so the order of the keys never
depends on how often a name was written.
-/

namespace GraphQL

universe u v

/-- Named values in the order in which the names first appeared. -/
abbrev OrderedMap (α : Type u) := List (String × α)

namespace OrderedMap

variable {α : Type u} {β : Type v}

def empty : OrderedMap α := []

/-- The value under a name. -/
def find? : OrderedMap α → String → Option α
  | [], _ => none
  | (key, value) :: rest, name => if key = name then some value else find? rest name

def contains (map : OrderedMap α) (name : String) : Bool :=
  (map.find? name).isSome

/-- Replaces the value under a name, or adds the name at the end. -/
def insert : OrderedMap α → String → α → OrderedMap α
  | [], name, value => [(name, value)]
  | (key, old) :: rest, name, value =>
      if key = name then (key, value) :: rest else (key, old) :: insert rest name value

/-- Changes the value under a name, or adds the name at the end with a value made from nothing. -/
def alter : OrderedMap α → String → (Option α → α) → OrderedMap α
  | [], name, change => [(name, change none)]
  | (key, old) :: rest, name, change =>
      if key = name then (key, change (some old)) :: rest
      else (key, old) :: alter rest name change

/-- Adds a name at the end unless it is already there. -/
def insertIfNew (map : OrderedMap α) (name : String) (value : α) : OrderedMap α :=
  if map.contains name then map else map ++ [(name, value)]

def keys (map : OrderedMap α) : List String :=
  List.map Prod.fst map

def values (map : OrderedMap α) : List α :=
  List.map Prod.snd map

/-- Inserts the pairs one after the other, so the last value of a repeated name wins. -/
def ofPairs (pairs : List (String × α)) : OrderedMap α :=
  pairs.foldl (fun map pair => insert map pair.1 pair.2) []

/-- Lets the second map override and extend the first. -/
def override (map changes : OrderedMap α) : OrderedMap α :=
  changes.foldl (fun result pair => insert result pair.1 pair.2) map

def mapValues (map : OrderedMap α) (change : α → β) : OrderedMap β :=
  List.map (fun pair => (pair.1, change pair.2)) map

/-- The entries in the order of their names. -/
def sortedByKey (map : OrderedMap α) : OrderedMap α :=
  List.mergeSort map (fun left right => decide (left.1 ≤ right.1))

@[simp]
theorem find?_nil (name : String) : find? ([] : OrderedMap α) name = none := rfl

theorem find?_cons (key name : String) (value : α) (rest : OrderedMap α) :
    find? ((key, value) :: rest) name = if key = name then some value else find? rest name := rfl

/-- An inserted value is found under its name. -/
@[simp]
theorem find?_insert_self (map : OrderedMap α) (name : String) (value : α) :
    (insert map name value).find? name = some value := by
  induction map with
  | nil => simp [insert, find?]
  | cons entry rest ih =>
      simp only [insert]
      split
      · simp_all [find?]
      · simp_all [find?]

/-- Inserting under one name leaves the others alone. -/
theorem find?_insert_of_ne (map : OrderedMap α) {name other : String} (value : α)
    (distinct : name ≠ other) : (insert map name value).find? other = map.find? other := by
  induction map with
  | nil => simp [insert, find?, distinct]
  | cons entry rest ih =>
      simp only [insert]
      split
      · rename_i same
        subst same
        simp [find?, distinct]
      · simp [find?, ih]

/-- The keys after an insertion: a known name keeps its place, a new one comes last. -/
theorem keys_insert (map : OrderedMap α) (name : String) (value : α) :
    keys (insert map name value) = if name ∈ keys map then keys map else keys map ++ [name] := by
  induction map with
  | nil => simp [insert, keys]
  | cons entry rest ih =>
      simp only [insert]
      split
      · rename_i same
        simp [keys, same]
      · rename_i distinct
        simp only [keys, List.map_cons, List.mem_cons] at ih ⊢
        rw [ih]
        by_cases present : name ∈ List.map Prod.fst rest
        · simp [present]
        · simp [present, Ne.symm distinct]

end OrderedMap

end GraphQL

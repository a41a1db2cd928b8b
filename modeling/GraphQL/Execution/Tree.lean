import GraphQL.Execution.Response

/-!
# Response trees

The data of a response while it is made. A place that waits for a lazy value is open; everything
else has its final form, unless a null from below replaces it. A place knows whether it can be null:
where it cannot, a null goes on to the place that holds it.
-/

namespace GraphQL

/-- The data of a response, complete except for the places that wait. -/
inductive ResponseTree where
  | waiting
  | null
  | leaf (value : Json)
  /-- The items of a list, which can all be null or none. -/
  | list (nullable : Bool) (items : List ResponseTree)
  /-- The fields of an object, each with whether it can be null. -/
  | object (fields : List (String × Bool × ResponseTree))
  deriving Inhabited

namespace ResponseTree

mutual

/-- The tree as JSON. A place that waits is null. -/
def toJson : ResponseTree → Json
  | waiting => .null
  | null => .null
  | leaf value => value
  | list _ items => .array (itemsToJson items)
  | object fields => .object (fieldsToJson fields)

def itemsToJson : List ResponseTree → List Json
  | [] => []
  | item :: rest => toJson item :: itemsToJson rest

def fieldsToJson : List (String × Bool × ResponseTree) → List (String × Json)
  | [] => []
  | (key, _, value) :: rest => (key, toJson value) :: fieldsToJson rest

end

/-- What a place holds that was to hold a result: the result; for a failure null if it can be null,
and nothing if the failure goes on to the place around it. -/
def filled (nullable : Bool) : Option ResponseTree → Option ResponseTree
  | some tree => some tree
  | none => if nullable then some null else none

/-- The subtree at a path, unless the path leads to a null or nowhere. -/
def at? : ResponseTree → ResponsePath → Option ResponseTree
  | null, _ => none
  | tree, [] => some tree
  | list _ items, .index position :: rest =>
      match items[position]? with
      | some item => at? item rest
      | none => none
  | object fields, .field key :: rest =>
      match OrderedMap.find? fields key with
      | some (_, value) => at? value rest
      | none => none
  | _, _ :: _ => none

/-- No null stands at a path or above it. -/
def isLive (tree : ResponseTree) (path : ResponsePath) : Bool :=
  (tree.at? path).isSome

/-- Puts a result at a path. A failure goes up to the nearest place that can be null, and beyond the
tree if there is none. -/
def place : ResponseTree → ResponsePath → Option ResponseTree → Option ResponseTree
  | _, [], result => result
  | list nullable items, .index position :: rest, result =>
      match items[position]? with
      | some item =>
          (filled nullable (place item rest result)).map fun item =>
            list nullable (items.set position item)
      | none => some (list nullable items)
  | object fields, .field key :: rest, result =>
      match OrderedMap.find? fields key with
      | some (nullable, value) =>
          (filled nullable (place value rest result)).map fun value =>
            object (OrderedMap.insert fields key (nullable, value))
      | none => some (object fields)
  | tree, _ :: _, _ => some tree

end ResponseTree

end GraphQL

import GraphQL.OrderedMap

/-!
# Accessors by kind

An object is lazy if its kind has an accessor, or extends a kind that is lazy. A table holds the
accessors and the links from a kind to the one it extends, and remembers what it has answered, also
that there is nothing to answer. Every change of the table forgets all answers.

A look-up follows the links one by one. A chain that is longer than there are links has run into a
cycle, so it is given up there.
-/

namespace GraphQL

/-- The kind that another kind extends, and how an object is seen as one of that kind. -/
structure ParentLink (Upcast : Type) where
  parent : String
  upcast : Upcast

/-- An accessor, the kind it was registered for, and the upcasts that lead to that kind. -/
structure AccessorPath (Upcast Accessor : Type) where
  upcasts : List Upcast
  kind : String
  accessor : Accessor

structure AccessorTable (Upcast Accessor : Type) where
  accessors : OrderedMap Accessor := []
  parents : OrderedMap (ParentLink Upcast) := []
  /-- What was answered since the last change. -/
  answers : OrderedMap (Option (AccessorPath Upcast Accessor)) := []

namespace AccessorTable

variable {Upcast Accessor : Type}

/-- Sets the accessor of a kind. -/
def register (table : AccessorTable Upcast Accessor) (kind : String) (accessor : Accessor) :
    AccessorTable Upcast Accessor :=
  { table with accessors := table.accessors.insert kind accessor, answers := [] }

/-- Sets the kind that a kind extends. -/
def inherit (table : AccessorTable Upcast Accessor) (kind : String) (link : ParentLink Upcast) :
    AccessorTable Upcast Accessor :=
  { table with parents := table.parents.insert kind link, answers := [] }

/-- The first kind with an accessor on the chain of parents, within so many steps; `upcasts` led to
the kind at which the search starts. -/
def search (table : AccessorTable Upcast Accessor) :
    Nat → List Upcast → String → Option (AccessorPath Upcast Accessor)
  | 0, _, _ => none
  | steps + 1, upcasts, kind =>
      match table.accessors.find? kind with
      | some accessor => some { upcasts, kind, accessor }
      | none =>
          match table.parents.find? kind with
          | some link => search table steps (upcasts ++ [link.upcast]) link.parent
          | none => none

/-- Looks a kind up and remembers the answer. -/
def lookup (table : AccessorTable Upcast Accessor) (kind : String) :
    Option (AccessorPath Upcast Accessor) × AccessorTable Upcast Accessor :=
  match table.answers.find? kind with
  | some answer => (answer, table)
  | none =>
      let answer := table.search (table.parents.length + 1) [] kind
      (answer, { table with answers := table.answers.insert kind answer })

/-- What a look-up answers. -/
def answer? (table : AccessorTable Upcast Accessor) (kind : String) :
    Option (AccessorPath Upcast Accessor) :=
  (table.lookup kind).1

end AccessorTable

end GraphQL

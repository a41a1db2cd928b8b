/-!
# Interned names

The distinct names met so far, each known by its position. A new interner already knows the names
that every document may use without declaring them.
-/

namespace GraphQL

/-- The names met so far, without repetition; the identifier of a name is its position. -/
structure Interner where
  names : List String
  nodup : names.Nodup

namespace Interner

/-- The names known from the start. -/
def initialNames : List String :=
  ["Int", "Float", "String", "Boolean", "ID", "__typename", "skip", "include", "if"]

def initial : Interner :=
  ⟨initialNames, by decide⟩

/-- The identifier of a name that is already known. -/
def lookup? (interner : Interner) (name : String) : Option Nat :=
  interner.names.findIdx? (· == name)

/-- The names with one more, at the end unless it is known. -/
def intern (interner : Interner) (name : String) : Interner :=
  if present : name ∈ interner.names then interner
  else
    ⟨interner.names ++ [name], by
      refine List.nodup_append.2 ⟨interner.nodup, by simp, ?_⟩
      intro known isKnown new isNew equal
      rw [List.mem_singleton] at isNew
      exact present (isNew ▸ equal ▸ isKnown)⟩

/-- The name with an identifier. -/
def resolve? (interner : Interner) (identifier : Nat) : Option String :=
  interner.names[identifier]?

/-- The name with an identifier, empty for an unknown one. -/
def get (interner : Interner) (identifier : Nat) : String :=
  (interner.resolve? identifier).getD ""

def size (interner : Interner) : Nat :=
  interner.names.length

def isEmpty (interner : Interner) : Bool :=
  interner.names.isEmpty

/-- Interning adds a name exactly if it is new. -/
theorem names_intern (interner : Interner) (name : String) :
    (interner.intern name).names =
      if name ∈ interner.names then interner.names else interner.names ++ [name] := by
  unfold intern
  split <;> simp_all

end Interner

end GraphQL

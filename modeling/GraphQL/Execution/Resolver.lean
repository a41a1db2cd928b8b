import GraphQL.Execution.Arguments
import GraphQL.Execution.Host
import GraphQL.Execution.Response
import GraphQL.Text.Casing

/-!
# Resolvers

A resolver gives the value of a field. Without one of its own a field has the default resolver,
which takes a property of a JSON parent. A type resolver names the object type of a value whose
declared type is abstract.
-/

namespace GraphQL

/-- Data that belongs to a request. -/
abbrev Context := OrderedMap Json

/-- What a resolver is told about its field. -/
structure FieldInfo where
  name : String
  parentType : String
  /-- The text of the declared type. -/
  returnType : String := ""
  path : ResponsePath := []
  /-- The response keys selected below the field, for any object type. -/
  selected : List String := []

/-- A request for the value of a field. -/
structure FieldCall (host : Host) where
  parent : host.Value
  arguments : ResolverArguments
  context : Context
  info : FieldInfo

abbrev Resolver (host : Host) := FieldCall host → Action host host.Result

abbrev TypeResolver (host : Host) := host.Value → Context → Action host (Option String)

/-- The value of a field whose parent is a JSON object: the property of its name, or of its name in
words joined by underscores. -/
def propertyOf (fields : OrderedMap Json) (name : String) : Json :=
  ((fields.find? name).or (fields.find? (Text.snakeCase name))).getD .null

namespace Resolver

variable {host : Host}

/-- Takes a property of a JSON object; a parent that is null has no properties but null. -/
def property : Resolver host := fun call =>
  match call.parent with
  | .json (.object fields) => return .ok (.ofJson (propertyOf fields call.info.name))
  | .null => return .ok .null
  | _ => return .error (.fieldNotFound (call.info.parentType ++ "." ++ call.info.name))

/-- A resolver that gives a pending value for work that depends on the call. -/
def pending (work : FieldCall host → host.Work) : Resolver host := fun call => do
  return .ok (← Action.pendingWork (work call))

end Resolver

/-- The resolvers of a host: by type and field, for all other fields, and for abstract types. -/
structure Resolvers (host : Host) where
  fields : OrderedMap (Resolver host) := []
  fallback : Option (Resolver host) := some Resolver.property
  types : OrderedMap (TypeResolver host) := []

namespace Resolvers

variable {host : Host}

def key (typeName fieldName : String) : String :=
  typeName ++ "." ++ fieldName

def register (resolvers : Resolvers host) (typeName fieldName : String) (resolver : Resolver host) :
    Resolvers host :=
  { resolvers with fields := resolvers.fields.insert (key typeName fieldName) resolver }

def registerType (resolvers : Resolvers host) (typeName : String) (resolver : TypeResolver host) :
    Resolvers host :=
  { resolvers with types := resolvers.types.insert typeName resolver }

/-- The resolver of a field. -/
def field? (resolvers : Resolvers host) (typeName fieldName : String) : Option (Resolver host) :=
  (resolvers.fields.find? (key typeName fieldName)).or resolvers.fallback

/-- The name in the property that tells the type of a JSON object. -/
def namedType? (value : host.Value) : Option String :=
  match value with
  | .json value =>
      match value.property? "__typename" with
      | some (.string name) => some name
      | _ => none
  | _ => none

/-- The name of the object type of a value whose declared type is abstract. -/
def typeOf (resolvers : Resolvers host) (typeName : String) (value : host.Value)
    (context : Context) : Action host (Option String) :=
  match resolvers.types.find? typeName with
  | some resolver => resolver value context
  | none => return namedType? value

end Resolvers

end GraphQL

import GraphQL.Execution.Error
import GraphQL.Json.Conversion

/-!
# Arguments of a resolver

The coerced arguments of a field by name, and taking one at a type.
-/

namespace GraphQL

/-- The arguments that a resolver is given. -/
abbrev ResolverArguments := OrderedMap Json

namespace ResolverArguments

/-- The argument with a name, if it is there and has the right type. -/
def read? {α : Type} (arguments : ResolverArguments)
    (convert : Json → Except Json.ConversionError α) (name : String) : Option α := do
  (convert (← OrderedMap.find? arguments name)).toOption

/-- The argument with a name, which has to be there and to have the right type. -/
def require {α : Type} (arguments : ResolverArguments)
    (convert : Json → Except Json.ConversionError α) (name : String) : Except ResolverError α :=
  match OrderedMap.find? arguments name with
  | none => .error (.missingArgument name)
  | some value => (convert value).mapError fun error => .argumentUnreadable name error.message

end ResolverArguments

end GraphQL

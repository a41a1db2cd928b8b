import GraphQL.Diagnostic
import GraphQL.Json.Printer
import GraphQL.Schema.Type

/-!
# Errors of schemas

What keeps a source from being a schema, or a schema from having a source.
-/

namespace GraphQL

inductive SchemaError where
  | unreadable (fault : SliceFault)
  | invalidSource (diagnostics : List Diagnostic)
  | executableDefinition
  | duplicateType (name : String)
  | unknownType (name referencedBy : String)
  | invalidRootType (name operation : String)
  | unexpectedDefault (type : TypeRef) (value : Json)

namespace SchemaError

def message : SchemaError → String
  | unreadable _ => ""
  | invalidSource diagnostics =>
      "schema source has " ++ toString diagnostics.length ++ " syntax error(s)"
  | executableDefinition => "schema source contains an executable definition"
  | duplicateType name => "type \x60" ++ name ++ "\x60 is defined more than once"
  | unknownType name referencedBy =>
      "unknown type \x60" ++ name ++ "\x60 referenced by \x60" ++ referencedBy ++ "\x60"
  | invalidRootType name operation =>
      "\x60" ++ name ++ "\x60 must be an object type to be the " ++ operation ++ " root"
  | unexpectedDefault type value =>
      "unexpected default value " ++ value.compact ++ " for type \x60" ++ type.text ++ "\x60"

end SchemaError

end GraphQL

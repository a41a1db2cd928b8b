import GraphQL.Document.Executable
import GraphQL.Schema.Type

/-!
# Errors of an execution

What host code can report, and what can be wrong with an operation or with one of its fields.
-/

namespace GraphQL

/-- An error that host code reports. -/
inductive ResolverError where
  | fieldNotFound (field : String)
  | missingArgument (name : String)
  | argumentUnreadable (name reason : String)
  | nullValue (field : String)
  | custom (text : String)
  | internal (text : String)
  deriving DecidableEq, Repr

def ResolverError.message : ResolverError → String
  | fieldNotFound field => s!"Field not found: {field}"
  | missingArgument name => s!"Missing required argument: {name}"
  | argumentUnreadable name reason => s!"Failed to parse argument '{name}': {reason}"
  | nullValue field => s!"Null value for non-nullable field: {field}"
  | custom text => text
  | internal text => s!"Internal error: {text}"

/-- An error that ends an operation before it starts, or that is recorded for one of its fields. -/
inductive ExecutionError where
  | resolver (error : ResolverError)
  | unknownOperation (name : String)
  | noOperation
  | operationNameRequired
  | missingRootType (kind : OperationKind)
  | tooDeep (depth limit : Nat)
  | stillLazy (limit : Nat)
  | nullForNonNull (owner field : String)
  | unresolvedType (type owner field : String)
  | invalidValue (owner field : String) (type : TypeRef)
  deriving DecidableEq, Repr

def ExecutionError.message : ExecutionError → String
  | resolver error => error.message
  | unknownOperation name => s!"Unknown operation named '{name}'"
  | noOperation => "Document does not contain any operations"
  | operationNameRequired =>
      "Must provide operation name if query contains multiple operations"
  | missingRootType kind => s!"Schema is not configured for {kind.text}s"
  | tooDeep depth limit => s!"Query has depth of {depth}, which exceeds max depth of {limit}"
  | stillLazy limit => s!"Lazy value was still pending after {limit} forcing steps"
  | nullForNonNull owner field =>
      s!"Cannot return null for non-nullable field {owner}.{field}"
  | unresolvedType type owner field =>
      s!"Abstract type {type} must resolve to an object type at runtime for field {owner}.{field}"
  | invalidValue owner field type =>
      s!"Field {owner}.{field} returned a value that can't be completed as {type.text}"

end GraphQL

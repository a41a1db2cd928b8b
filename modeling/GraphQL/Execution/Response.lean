import GraphQL.Execution.Error
import GraphQL.Plan.Interchange

/-!
# Responses

What a caller gets back: the data, and the errors with the places and fields they belong to. A part
that has nothing to say is left out of the JSON form, so data that is null differs from no data.
-/

namespace GraphQL

/-- A step from a value of the response into it. -/
inductive PathSegment where
  | field (key : String)
  | index (position : Nat)
  deriving DecidableEq, Repr

namespace PathSegment

def text : PathSegment → String
  | field key => key
  | index position => toString position

def toJson : PathSegment → Json
  | field key => .string key
  | index position => .int position

def ofJson? : Json → Option PathSegment
  | .string key => some (.field key)
  | .int position => if 0 ≤ position then some (.index position.toNat) else none
  | _ => none

end PathSegment

/-- The way from the root of a response to one of its values. -/
abbrev ResponsePath := List PathSegment

/-- An error of a response. -/
structure FieldError where
  message : String
  locations : Option (List Location) := none
  path : Option ResponsePath := none
  extensions : Option (OrderedMap Json) := none

namespace FieldError

def withPath (error : FieldError) (path : ResponsePath) : FieldError :=
  { error with path := some path }

/-- Adds places in the source; an empty list adds none. -/
def withLocations (error : FieldError) (locations : List Location) : FieldError :=
  if locations.isEmpty then error else { error with locations := some locations }

def withExtension (error : FieldError) (key : String) (value : Json) : FieldError :=
  { error with extensions := some ((error.extensions.getD []).insert key value) }

def withCode (error : FieldError) (code : String) : FieldError :=
  error.withExtension "code" (.string code)

/-- A field with a value that may be missing. -/
def field {α : Type} (name : String) (encode : α → Json) : Option α → List (String × Json)
  | none => []
  | some value => [(name, encode value)]

def toJson (error : FieldError) : Json :=
  .object
    ([("message", .string error.message)]
      ++ field "locations" (fun all => .array (all.map Location.toJson)) error.locations
      ++ field "path" (fun path => .array (path.map PathSegment.toJson)) error.path
      ++ field "extensions" Json.object error.extensions)

/-- Reads a value that may be missing or null. -/
def optional? {α : Type} (decode : Json → Option α) : Json → Option (Option α)
  | .null => some none
  | json => (decode json).map some

def location? (json : Json) : Option Location := do
  match json.get "line", json.get "column" with
  | .int line, .int column => return ⟨line.toNat, column.toNat⟩
  | _, _ => none

def ofJson? (json : Json) : Option FieldError := do
  return {
    message := ← (json.get "message").string?
    locations := ← optional? (fun all => do (← all.items?).mapM location?) (json.get "locations")
    path := ← optional? (fun path => do (← path.items?).mapM PathSegment.ofJson?) (json.get "path")
    extensions := ← optional? Json.fields? (json.get "extensions") }

/-- Equality, with extensions in any order. -/
def sameAs (left right : FieldError) : Bool :=
  left.message == right.message && left.locations == right.locations && left.path == right.path
    && left.extensions.map Json.object == right.extensions.map Json.object

instance : BEq FieldError := ⟨sameAs⟩

end FieldError

/-- An error as an entry of a response, without a place. -/
def ResolverError.toFieldError (error : ResolverError) : FieldError :=
  { message := error.message }

def ExecutionError.toFieldError (error : ExecutionError) : FieldError :=
  { message := error.message }

/-- A response. Data that is missing says that nothing was executed. -/
structure Response where
  data : Option Json := none
  errors : Option (List FieldError) := none

namespace Response

/-- The response to an execution. -/
def ofData (data : Json) (errors : List FieldError) : Response :=
  { data := some data, errors := if errors.isEmpty then none else some errors }

/-- The response to an operation that was not executed. -/
def ofError (error : FieldError) : Response :=
  { errors := some [error] }

def hasErrors (response : Response) : Bool :=
  response.errors.any fun errors => !errors.isEmpty

/-- The messages of the errors, in order. -/
def messages (response : Response) : List String :=
  (response.errors.getD []).map FieldError.message

def toJson (response : Response) : Json :=
  .object
    (FieldError.field "data" id response.data
      ++ FieldError.field "errors" (fun errors => .array (errors.map FieldError.toJson))
        response.errors)

/-- Reads a response. Data that is null reads as missing. -/
def ofJson? (json : Json) : Option Response := do
  return {
    data := ← FieldError.optional? some (json.get "data")
    errors := ← FieldError.optional?
      (fun errors => do (← errors.items?).mapM FieldError.ofJson?) (json.get "errors") }

end Response

end GraphQL

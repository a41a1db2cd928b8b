import GraphQL.Execution.Arguments
import GraphQL.Json.Printer
import GraphQL.Plan
import GraphQL.Schema

/-!
# Coercion of input values

Values from a request are checked against the input types of the schema before a resolver sees them.
A single value stands for a list of one, a field of an input object that is not given takes its
default, and the default is coerced like a value that was given.

An input object whose default holds, somewhere inside, an object of the same type that leaves out
the same field has no finite value. Such a default is an error of its own: filling in a default uses
it up for all that happens inside it, so coercion ends because a schema has finitely many defaults.
-/

namespace GraphQL

/-- Why a value is not a value of a type. -/
inductive CoercionError where
  | missing (type : TypeRef)
  | mismatch (expected : TypeRef) (found : Json)
  | undefinedField (field type : String)
  | notInput (type : String)
  | endlessDefault (type field : String)
  | inField (type field : String) (error : CoercionError)

def CoercionError.message : CoercionError → String
  | missing type => s!"expected a value of type {type.text}"
  | mismatch expected found => s!"expected {expected.text}, found {found.compact}"
  | undefinedField field type => s!"field '{field}' is not defined by {type}"
  | notInput type => s!"{type} is not an input type"
  | endlessDefault type field => s!"the default of {type}.{field} needs itself"
  | inField type field error => s!"{type}.{field}: {error.message}"

/-- Whether a default needs itself. -/
def CoercionError.isEndless : CoercionError → Bool
  | endlessDefault _ _ => true
  | inField _ _ error => error.isEndless
  | _ => false

/-- A field of an input object: the name of the type and its own. -/
abbrev InputFieldName := String × String

/-- The fields of all input objects. -/
def Schema.inputFieldNames (schema : Schema) : List InputFieldName :=
  schema.types.flatMap fun (typeName, type) =>
    match type.form with
    | .inputObject fields => (OrderedMap.keys fields).map fun field => (typeName, field)
    | _ => []

/-- An integer that fits in 32 bits with a sign. -/
def fitsInt32 (value : Int) : Bool :=
  -2147483648 ≤ value && value < 2147483648

/-- A value of a scalar type. The built-in types check it, and an identifier may be given as an
integer; any other scalar takes every value. -/
def coerceScalar (name : String) (value : Json) : Except CoercionError Json :=
  let mismatch : Except CoercionError Json := .error (.mismatch (.named name) value)
  if name = "Int" then
    if value.int64?.any fitsInt32 then .ok value else mismatch
  else if name = "Float" then
    match value with
    | .int _ | .float _ => .ok value
    | _ => mismatch
  else if name = "String" then
    match value with
    | .string _ => .ok value
    | _ => mismatch
  else if name = "Boolean" then
    match value with
    | .bool _ => .ok value
    | _ => mismatch
  else if name = "ID" then
    match value, value.int64? with
    | _, some number => .ok (.string (toString number))
    | .string _, none => .ok value
    | _, none => mismatch
  else .ok value

theorem sizeOf_lt_of_find? {fields : List (String × Json)} {name : String} {value : Json}
    (found : OrderedMap.find? fields name = some value) : sizeOf value < sizeOf fields := by
  induction fields with
  | nil => simp at found
  | cons entry rest ih =>
      obtain ⟨key, first⟩ := entry
      rw [OrderedMap.find?_cons] at found
      split at found
      · cases found
        simp only [List.cons.sizeOf_spec, Prod.mk.sizeOf_spec]
        omega
      · have := ih found
        simp only [List.cons.sizeOf_spec]
        omega

theorem length_erase_lt {defaults : List InputFieldName} {field : InputFieldName}
    (present : field ∈ defaults) : (defaults.erase field).length < defaults.length := by
  have := List.length_pos_of_mem present
  rw [List.length_erase_of_mem present]
  omega

/-- How the default of a field becomes a value of the type of the field. -/
abbrev DefaultCoercion := InputFieldName → TypeRef → Json → Except CoercionError Json

/-- The value of a field that is not given: its default, or none if it may stay absent. -/
def coerceAbsent (coerceDefault : DefaultCoercion) (name : InputFieldName) (field : InputValue) :
    Except CoercionError (Option Json) :=
  match field.default? with
  | some value => (coerceDefault name field.type value).map some
  | none => if field.type.isNonNull then .error (.missing field.type) else .ok none

mutual

/-- A value as a value of a type, given how defaults are coerced. -/
def coerceBy (schema : Schema) (coerceDefault : DefaultCoercion) (type : TypeRef) (value : Json) :
    Except CoercionError Json :=
  match type, value with
  | .nonNull _, .null => .error (.mismatch type .null)
  | .nonNull inner, value => coerceBy schema coerceDefault inner value
  | _, .null => .ok .null
  | .list item, .array items => do
      return .array (← coerceItems schema coerceDefault item items)
  | .list item, single => do
      return .array [← coerceBy schema coerceDefault item single]
  | .named name, value =>
      match (schema.type? name).map SchemaType.form with
      | some (.enum values) =>
          match value with
          | .string text =>
              if values.any (·.name == text) then .ok value else .error (.mismatch type value)
          | _ => .error (.mismatch type value)
      | some (.inputObject fields) =>
          match value with
          | .object given =>
              match (OrderedMap.keys given).find? fun key => !OrderedMap.contains fields key with
              | some unknown => .error (.undefinedField unknown name)
              | none => do return .object (← coerceFields schema coerceDefault name given fields)
          | _ => .error (.mismatch type value)
      | some .scalar | none => coerceScalar name value
      | some _ => .error (.notInput name)
termination_by (sizeOf value, sizeOf type)

def coerceItems (schema : Schema) (coerceDefault : DefaultCoercion) (type : TypeRef) :
    List Json → Except CoercionError (List Json)
  | [] => .ok []
  | item :: rest => do
      return (← coerceBy schema coerceDefault type item) ::
        (← coerceItems schema coerceDefault type rest)
termination_by items => (sizeOf items, 0)

/-- The fields of an input object, in the order in which the type declares them. -/
def coerceFields (schema : Schema) (coerceDefault : DefaultCoercion) (typeName : String)
    (given : List (String × Json)) :
    List (String × InputValue) → Except CoercionError (List (String × Json))
  | [] => .ok []
  | (name, field) :: rest => do
      let coerced : Except CoercionError (Option Json) :=
        match found : OrderedMap.find? given name with
        | some value =>
            have := sizeOf_lt_of_find? found
            (coerceBy schema coerceDefault field.type value).map some
        | none => coerceAbsent coerceDefault (typeName, name) field
      let value ← coerced.mapError (.inField typeName name)
      let others ← coerceFields schema coerceDefault typeName given rest
      return (value.map fun value => (name, value)).toList ++ others
termination_by fields => (sizeOf given, fields.length)

end

/-- A value as a value of a type, while only the given defaults may still be filled in. -/
def coerceWith (schema : Schema) (defaults : List InputFieldName) (type : TypeRef) (value : Json) :
    Except CoercionError Json :=
  coerceBy schema (fun field type default =>
    if unused : field ∈ defaults then
      have := length_erase_lt unused
      coerceWith schema (defaults.erase field) type default
    else .error (.endlessDefault field.1 field.2)) type value
termination_by defaults.length

/-- A value as a value of an input type. -/
def coerceValue (schema : Schema) (type : TypeRef) (value : Json) : Except CoercionError Json :=
  coerceWith schema schema.inputFieldNames type value

/-- An argument as its declared type; nothing if it stays absent. -/
def coerceArgument (schema : Schema) (argument : InputValue) (given : Option Json) :
    Except CoercionError (Option Json) :=
  match given.or argument.default? with
  | some value => (coerceValue schema argument.type value).map some
  | none => if argument.type.isNonNull then .error (.missing argument.type) else .ok none

/-- The value that a request gives to an argument. A variable without a value gives none. -/
def givenArgument? (arguments : OrderedMap PlanValue) (bindings : Variables) (name : String) :
    Option Json :=
  match arguments.find? name with
  | some (.var named) => bindings.find? named
  | some value => some (value.resolve bindings)
  | none => none

/-- Adds an argument that a field declares, if it has a value. -/
def addArgument (schema : Schema) (arguments : OrderedMap PlanValue) (bindings : Variables)
    (coerced : ResolverArguments) : String × InputValue → Except ResolverError ResolverArguments
  | (name, argument) =>
      match coerceArgument schema argument (givenArgument? arguments bindings name) with
      | .ok none => .ok coerced
      | .ok (some value) => .ok (OrderedMap.insert coerced name value)
      | .error error => .error (.argumentUnreadable name error.message)

/-- The arguments for one field, in the order in which it declares them. -/
def coerceArguments (schema : Schema) (field : OutputField) (arguments : OrderedMap PlanValue)
    (bindings : Variables) : Except ResolverError ResolverArguments :=
  field.arguments.foldlM (addArgument schema arguments bindings) []

end GraphQL

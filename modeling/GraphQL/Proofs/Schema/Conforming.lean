import GraphQL.Proofs.Schema.Definition

/-!
# Conforming schemas

A type covers an object type if values of the object type are values of it. Reading a schema does
not check that objects have the fields of their interfaces; where they do, a field selected on a
type is a field of all object types that the type covers, and what it returns there is among what it
returns on the type.
-/

namespace GraphQL

namespace SchemaType

/-- The names of the interfaces that an object or interface implements. -/
def interfaces (type : SchemaType) : List String :=
  match type.form with
  | .object _ interfaces => interfaces
  | .interface _ interfaces => interfaces
  | _ => []

def isInterface (type : SchemaType) : Bool :=
  match type.form with
  | .interface .. => true
  | _ => false

/-- The field that a type declares under a name. -/
def declared? (type : SchemaType) (name : String) : Option OutputField :=
  type.fields?.bind fun fields => OrderedMap.find? fields name

theorem isComposite_of_isObject {type : SchemaType} (holds : type.isObject = true) :
    type.isComposite = true := by
  unfold isObject at holds
  unfold isComposite
  split at holds <;> simp_all

theorem isComposite_of_isAbstract {type : SchemaType} (holds : type.isAbstract = true) :
    type.isComposite = true := by
  unfold isAbstract at holds
  unfold isComposite
  split at holds <;> simp_all

theorem isAbstract_of_isObject {type : SchemaType} (holds : type.isObject = true) :
    type.isAbstract = false := by
  unfold isObject at holds
  unfold isAbstract
  split at holds <;> simp_all

theorem isAbstract_of_isInterface {type : SchemaType} (holds : type.isInterface = true) :
    type.isAbstract = true := by
  unfold isInterface at holds
  unfold isAbstract
  split at holds <;> simp_all

/-- Values of the object type are values of the type. -/
def Covers (schema : Schema) (type object : SchemaType) : Prop :=
  type.name = object.name ∨
    type.isAbstract = true ∧ object.name ∈ schema.possibleTypes type.name

/-- Only composite types cover object types. -/
theorem Covers.isComposite {schema : Schema} {type object : SchemaType}
    (covers : type.Covers schema object) (objectKnown : schema.type? object.name = some object)
    (isObject : object.isObject = true) (known : schema.type? type.name = some type) :
    type.isComposite = true := by
  rcases covers with same | ⟨isAbstract, _⟩
  · rw [same] at known
    cases known.symm.trans objectKnown
    exact isComposite_of_isObject isObject
  · exact isComposite_of_isAbstract isAbstract

end SchemaType

namespace Schema

/-- Only interfaces are implemented, and objects have the fields of their interfaces, with types
that have no other values. -/
structure IsConforming (schema : Schema) : Prop where
  interfaces : ∀ entry ∈ schema.types, ∀ name ∈ entry.2.interfaces,
    ∃ type ∈ schema.type? name, type.isInterface = true
  fields : ∀ entry ∈ schema.types, entry.2.isObject = true → ∀ name ∈ entry.2.interfaces,
    ∀ type ∈ schema.type? name, ∀ field ∈ type.fields?.getD [],
      ∃ own ∈ entry.2.declared? field.1,
        schema.possibleTypes own.type.innermost ⊆ schema.possibleTypes field.2.type.innermost

instance (schema : Schema) : Decidable schema.IsConforming :=
  decidable_of_iff
    ((∀ entry ∈ schema.types, ∀ name ∈ entry.2.interfaces,
        ∃ type ∈ schema.type? name, type.isInterface = true) ∧
      ∀ entry ∈ schema.types, entry.2.isObject = true → ∀ name ∈ entry.2.interfaces,
        ∀ type ∈ schema.type? name, ∀ field ∈ type.fields?.getD [],
          ∃ own ∈ entry.2.declared? field.1,
            schema.possibleTypes own.type.innermost ⊆ schema.possibleTypes field.2.type.innermost)
    ⟨fun holds => ⟨holds.1, holds.2⟩, fun holds => ⟨holds.interfaces, holds.fields⟩⟩

variable {schema : Schema}

theorem IsWellFormed.name_eq (wellFormed : schema.IsWellFormed) {name : String} {type : SchemaType}
    (found : schema.type? name = some type) : type.name = name :=
  wellFormed.named (name, type) (OrderedMap.mem_of_find? found)

theorem IsWellFormed.type?_of_mem (wellFormed : schema.IsWellFormed)
    {entry : String × SchemaType} (member : entry ∈ schema.types) :
    schema.type? entry.1 = some entry.2 :=
  OrderedMap.find?_of_mem wellFormed.distinct member

theorem IsWellFormed.type?_name (wellFormed : schema.IsWellFormed) {name : String}
    {type : SchemaType} (found : schema.type? name = some type) :
    schema.type? type.name = some type := by
  rwa [wellFormed.name_eq found]

/-! ## Fields -/

theorem field?_eq {name fieldName : String} {type : SchemaType}
    (found : schema.type? name = some type) :
    schema.field? name fieldName =
      if fieldName = typenameField.name ∧ type.isComposite then some typenameField
      else type.declared? fieldName := by
  simp only [field?, found, Option.bind_eq_bind, Option.bind_some]
  rfl

theorem IsWellFormed.field_name (wellFormed : schema.IsWellFormed) {name fieldName : String}
    {field : OutputField} (defined : schema.field? name fieldName = some field) :
    field.name = fieldName := by
  cases found : schema.type? name with
  | none => simp [field?, found] at defined
  | some type =>
      rw [field?_eq found] at defined
      split at defined
      · rename_i isTypename
        simp only [Option.some.injEq] at defined
        rw [← defined, isTypename.1]
      · rcases Option.bind_eq_some_iff.mp defined with ⟨fields, hasFields, declared⟩
        apply wellFormed.fieldsNamed (name, type) (OrderedMap.mem_of_find? found) (fieldName, field)
        rw [hasFields]
        exact OrderedMap.mem_of_find? declared

theorem IsWellFormed.returns_type (wellFormed : schema.IsWellFormed) {name fieldName : String}
    {field : OutputField} (defined : schema.field? name fieldName = some field) :
    ∃ type, schema.type? field.type.innermost = some type := by
  rw [← Option.isSome_iff_exists]
  cases found : schema.type? name with
  | none => simp [field?, found] at defined
  | some type =>
      rw [field?_eq found] at defined
      split at defined
      · simp only [Option.some.injEq] at defined
        subst defined
        exact wellFormed.stringKnown
      · have entryMem := OrderedMap.mem_of_find? found
        rcases Option.bind_eq_some_iff.mp defined with ⟨fields, hasFields, declared⟩
        have valueMem : field ∈ OrderedMap.values fields :=
          List.mem_map.mpr ⟨(fieldName, field), OrderedMap.mem_of_find? declared, rfl⟩
        apply wellFormed.referencesKnown (name, type) entryMem
          (field.type.innermost, name ++ "." ++ field.name)
        unfold references
        unfold SchemaType.fields? at hasFields
        split at hasFields
        · rename_i form
          simp only [Option.some.injEq] at hasFields
          subst hasFields
          simp only [form]
          exact List.mem_append_right _
            (List.mem_flatMap.mpr ⟨field, valueMem, List.mem_cons_self⟩)
        · rename_i form
          simp only [Option.some.injEq] at hasFields
          subst hasFields
          simp only [form]
          exact List.mem_append_right _
            (List.mem_flatMap.mpr ⟨field, valueMem, List.mem_cons_self⟩)
        · cases hasFields

/-! ## Possible types -/

/-- The entry contributes an object type to the possible types of a name. -/
inductive Contributes (schema : Schema) (name : String) (entry : String × SchemaType) :
    String → Prop where
  | own (isObject : entry.2.isObject = true) (same : entry.1 = name) :
      Contributes schema name entry entry.1
  | implements (isObject : entry.2.isObject = true) (implemented : name ∈ entry.2.interfaces) :
      Contributes schema name entry entry.1
  | member {members : List String} {object : String} (isUnion : entry.2.form = .union members)
      (same : entry.1 = name) (isMember : object ∈ members)
      (isObject : schema.isObjectType object = true) : Contributes schema name entry object

theorem mem_addPossible {name object : String} {known : List String} {entry : String × SchemaType}
    (member : object ∈ schema.addPossible name known entry) :
    object ∈ known ∨ Contributes schema name entry object := by
  rcases entry with ⟨key, ⟨typeName, description, form⟩⟩
  cases form with
  | object fields interfaces =>
      simp only [addPossible, List.mem_append, List.mem_map, List.mem_filter, beq_iff_eq] at member
      rcases member with member | ⟨_, ⟨implemented, rfl⟩, rfl⟩
      · split at member
        · rename_i same
          rcases List.mem_append.mp member with member | member
          · exact .inl member
          · rw [List.mem_singleton] at member
            subst object
            exact .inr (.own rfl same)
        · exact .inl member
      · exact .inr (.implements rfl implemented)
  | union members =>
      simp only [addPossible] at member
      split at member
      · rename_i same
        rcases List.mem_filter.mp member with ⟨isMember, isObject⟩
        exact .inr (.member rfl same isMember isObject)
      · exact .inl member
  | scalar => exact .inl member
  | interface fields interfaces => exact .inl member
  | enum values => exact .inl member
  | inputObject fields => exact .inl member

/-- Where a possible type comes from. -/
theorem exists_contributes {name object : String} (member : object ∈ schema.possibleTypes name) :
    ∃ entry ∈ schema.types, Contributes schema name entry object := by
  have general : ∀ (entries : List (String × SchemaType)) (known : List String),
      object ∈ entries.foldl (schema.addPossible name) known →
        object ∈ known ∨ ∃ entry ∈ entries, Contributes schema name entry object := by
    intro entries
    induction entries with
    | nil => exact fun known => .inl
    | cons entry rest ih =>
        intro known member
        rcases ih _ member with member | ⟨other, otherMem, contributes⟩
        · rcases mem_addPossible member with member | contributes
          · exact .inl member
          · exact .inr ⟨entry, List.mem_cons_self, contributes⟩
        · exact .inr ⟨other, List.mem_cons_of_mem _ otherMem, contributes⟩
  rcases general _ _ member with member | found
  · cases member
  · exact found

theorem IsWellFormed.isObject_of_possible (wellFormed : schema.IsWellFormed) {name : String}
    {object : SchemaType} {objectName : String} (possible : objectName ∈ schema.possibleTypes name)
    (found : schema.type? objectName = some object) : object.isObject = true := by
  rcases exists_contributes possible with ⟨entry, entryMem, contributes⟩
  have entryFound := wellFormed.type?_of_mem entryMem
  cases contributes with
  | own isObject _ =>
      cases found.symm.trans entryFound
      exact isObject
  | implements isObject _ =>
      cases found.symm.trans entryFound
      exact isObject
  | member _ _ _ isObject =>
      simp only [isObjectType, found, Option.any_some] at isObject
      exact isObject

/-- A type covers all its possible types. -/
theorem IsConforming.covers_of_possible (conforming : schema.IsConforming)
    (wellFormed : schema.IsWellFormed) {name objectName : String} {type object : SchemaType}
    (found : schema.type? name = some type) (possible : objectName ∈ schema.possibleTypes name)
    (objectFound : schema.type? objectName = some object) : type.Covers schema object := by
  have typeName := wellFormed.name_eq found
  have objectNameEq := wellFormed.name_eq objectFound
  rcases exists_contributes possible with ⟨entry, entryMem, contributes⟩
  have entryFound := wellFormed.type?_of_mem entryMem
  cases contributes with
  | own isObject same =>
      left
      rw [typeName, objectNameEq, same]
  | implements isObject implemented =>
      right
      rcases conforming.interfaces entry entryMem name implemented with
        ⟨other, otherFound, isInterface⟩
      cases found.symm.trans otherFound
      exact ⟨SchemaType.isAbstract_of_isInterface isInterface, by rwa [typeName, objectNameEq]⟩
  | member isUnion same isMember isObject =>
      right
      rw [same] at entryFound
      cases found.symm.trans entryFound
      refine ⟨?_, by rwa [typeName, objectNameEq]⟩
      simp [SchemaType.isAbstract, isUnion]

/-- A field of a type that covers an object type is a field of the object type. -/
theorem IsConforming.field_of_covers (conforming : schema.IsConforming)
    (wellFormed : schema.IsWellFormed) {type object : SchemaType}
    (typeFound : schema.type? type.name = some type)
    (objectFound : schema.type? object.name = some object) (isObject : object.isObject = true)
    (covers : type.Covers schema object) {fieldName : String} {field : OutputField}
    (defined : schema.field? type.name fieldName = some field) :
    ∃ own, schema.field? object.name fieldName = some own ∧
      schema.possibleTypes own.type.innermost ⊆ schema.possibleTypes field.type.innermost := by
  rcases covers with same | ⟨isAbstract, possible⟩
  · exact ⟨field, same ▸ defined, List.Subset.refl _⟩
  · have objectComposite := SchemaType.isComposite_of_isObject isObject
    rw [field?_eq typeFound] at defined
    rw [field?_eq objectFound]
    split at defined
    · rename_i isTypename
      rw [if_pos ⟨isTypename.1, objectComposite⟩]
      exact ⟨field, defined, List.Subset.refl _⟩
    · rename_i notTypename
      have composite := SchemaType.isComposite_of_isAbstract isAbstract
      have otherName : ¬(fieldName = typenameField.name ∧ object.isComposite = true) := by
        rintro ⟨same, _⟩
        exact notTypename ⟨same, composite⟩
      rw [if_neg otherName]
      rcases exists_contributes possible with ⟨entry, entryMem, contributes⟩
      have entryFound := wellFormed.type?_of_mem entryMem
      generalize target : object.name = objectName at contributes objectFound
      cases contributes with
      | own entryObject same =>
          rw [same] at entryFound
          cases typeFound.symm.trans entryFound
          rw [SchemaType.isAbstract_of_isObject entryObject] at isAbstract
          cases isAbstract
      | implements entryObject implemented =>
          cases objectFound.symm.trans entryFound
          rcases Option.bind_eq_some_iff.mp defined with ⟨fields, hasFields, declared⟩
          have fieldMem : (fieldName, field) ∈ type.fields?.getD [] := by
            rw [hasFields]
            exact OrderedMap.mem_of_find? declared
          exact conforming.fields entry entryMem entryObject type.name implemented type typeFound
            (fieldName, field) fieldMem
      | member isUnion same isMember _ =>
          rw [same] at entryFound
          cases typeFound.symm.trans entryFound
          simp [SchemaType.declared?, SchemaType.fields?, isUnion] at defined

end Schema

end GraphQL

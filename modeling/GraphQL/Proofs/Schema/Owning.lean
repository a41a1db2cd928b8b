import GraphQL.Proofs.Schema.Origin

/-!
# What a schema has of its own

What a schema has that is read from a source can be written, and so can the names of its root types.
It has the built-in types and directives and then its own ones, as long as the source does not define
a built-in one again.
-/

namespace GraphQL

open Token (IsWordText)

/-- The definition gives something built in another meaning. -/
def Definition.redefines : Definition → Bool
  | .type definition => Schema.builtInScalars.contains definition.name.text
  | .directive definition => Schema.builtInDirectives.contains definition.name.text
  | _ => false

/-- A union has members, and no enum value has the name of another literal. -/
def TypeForm.isPlain : TypeForm → Bool
  | union members => !members.isEmpty
  | enum values => values.all fun value => !(["true", "false", "null"].contains value.name)
  | _ => true

/-! ## Maps beside what is built in -/

/-- Values under their names, each once, beside those that are built in. -/
structure OrderedMap.Extends {α : Type} (map front : OrderedMap α) (name : α → String)
    (own : OrderedMap α) : Prop where
  same : map = front ++ own
  distinct : (keys map).Nodup
  named : ∀ entry ∈ own, name entry.2 = entry.1

theorem OrderedMap.Extends.insert {α : Type} {map front own : OrderedMap α} {name : α → String}
    (extends_ : map.Extends front name own) {value : α} (isNew : name value ∉ keys front) :
    (map.insert (name value) value).Extends front name (own.insert (name value) value) where
  same := by rw [extends_.same, insert_append_of_not_mem isNew]
  distinct := nodup_keys_insert extends_.distinct _ _
  named := by
    intro entry member
    rcases mem_insert member with rfl | member
    · rfl
    · exact extends_.named entry member

/-- The values without those that are built in. -/
theorem OrderedMap.Extends.filter_values {α : Type} {map front own : OrderedMap α}
    {name : α → String} (extends_ : map.Extends front name own)
    (frontNamed : ∀ entry ∈ front, name entry.2 = entry.1) :
    (values map).filter (fun value => !(keys front).contains (name value)) = values own := by
  have distinct := extends_.distinct
  rw [extends_.same, keys, List.map_append, List.nodup_append] at distinct
  have none : (values front).filter (fun value => !(keys front).contains (name value)) = [] := by
    refine List.filter_eq_nil_iff.mpr fun value member => ?_
    rcases List.mem_map.mp member with ⟨entry, known, rfl⟩
    have member : entry.1 ∈ keys front := List.mem_map_of_mem known
    simp [frontNamed entry known, member]
  have all : (values own).filter (fun value => !(keys front).contains (name value)) = values own := by
    refine List.filter_eq_self.mpr fun value member => ?_
    rcases List.mem_map.mp member with ⟨entry, known, rfl⟩
    have isNew : entry.1 ∉ keys front := fun old =>
      distinct.2.2 _ old _ (List.mem_map_of_mem known) rfl
    simp [extends_.named entry known, isNew]
  rw [extends_.same, values, List.map_append, List.filter_append]
  exact (congrArg₂ (· ++ ·) none all).trans (List.nil_append _)

/-! ## Schemas -/

namespace Schema

/-- What a schema has beside the built-in types and directives. -/
structure Owns (schema : Schema) (types : OrderedMap SchemaType)
    (directives : OrderedMap SchemaDirective) : Prop where
  types : schema.types.Extends initial.types SchemaType.name types
  directives : schema.directives.Extends initial.directives SchemaDirective.name directives

theorem owns_initial : initial.Owns [] [] where
  types := ⟨rfl, by decide, nofun⟩
  directives := ⟨rfl, by decide, nofun⟩

theorem addDefinitions_owns {definitions : List Definition} {schema defined : Schema}
    {types : OrderedMap SchemaType} {directives : OrderedMap SchemaDirective}
    (owns : schema.Owns types directives)
    (respects : ∀ definition ∈ definitions, definition.redefines = false)
    (added : addDefinitions schema definitions = .ok defined) :
    ∃ types directives, defined.Owns types directives := by
  refine addDefinitions_preserves (fun schema => ∃ types directives, schema.Owns types directives)
    ?_ ?_ added ⟨types, directives, owns⟩
  · rintro schema definition member ⟨types, directives, owns⟩
    have isNew : definition.toSchemaType.name ∉ OrderedMap.keys initial.types := fun known =>
      Bool.false_ne_true ((respects _ member).symm.trans (List.contains_iff_mem.mpr known))
    exact ⟨_, _, owns.types.insert isNew, owns.directives⟩
  · rintro schema definition member ⟨types, directives, owns⟩
    have isNew : definition.toSchemaDirective.name ∉ OrderedMap.keys initial.directives :=
      fun known =>
        Bool.false_ne_true ((respects _ member).symm.trans (List.contains_iff_mem.mpr known))
    exact ⟨_, _, owns.types, owns.directives.insert isNew⟩

/-! ### Root types -/

end Schema

/-- The name of the type at which operations of a kind start by convention. -/
def OperationKind.conventionalName : OperationKind → String
  | query => "Query"
  | mutation => "Mutation"
  | subscription => "Subscription"

namespace Schema

theorem rootTypeName?_withConventionalRoots (schema : Schema) (kind : OperationKind) :
    schema.withConventionalRoots.rootTypeName? kind =
      (schema.rootTypeName? kind).or (schema.objectNamed? kind.conventionalName) := by
  cases kind <;> rfl

theorem isObjectType_withConventionalRoots (schema : Schema) (name : String) :
    schema.withConventionalRoots.isObjectType name = schema.isObjectType name :=
  rfl

theorem rootTypeName?_withRoot (schema : Schema) (kind other : OperationKind) (name : String) :
    (schema.withRoot kind name).rootTypeName? other =
      if kind = other then some name else schema.rootTypeName? other := by
  cases kind <;> cases other <;> rfl

theorem rootTypeName?_addDefinitions {definitions : List Definition} {schema defined : Schema}
    (added : addDefinitions schema definitions = .ok defined) (kind : OperationKind) :
    defined.rootTypeName? kind = schema.rootTypeName? kind := by
  refine addDefinitions_preserves (fun now => now.rootTypeName? kind = schema.rootTypeName? kind)
    (fun now definition _ same => .trans ?_ same) (fun now definition _ same => .trans ?_ same)
    added rfl
  · cases kind <;> rfl
  · cases kind <;> rfl

/-- Root types are named by operations, or were there before. -/
theorem rootTypeName?_setRoots {operations : List RootOperation} {schema : Schema}
    {kind : OperationKind} {name : String}
    (root : (setRoots schema operations).rootTypeName? kind = some name) :
    schema.rootTypeName? kind = some name ∨ ∃ operation ∈ operations, operation.type.text = name := by
  induction operations generalizing schema with
  | nil => exact .inl root
  | cons operation rest ih =>
      rcases ih root with root | ⟨other, member, same⟩
      · rw [rootTypeName?_withRoot] at root
        split at root
        · exact .inr ⟨operation, List.mem_cons_self, Option.some.inj root⟩
        · exact .inl root
      · exact .inr ⟨other, List.mem_cons_of_mem _ member, same⟩

/-- What is known of a schema that was read: what it has of its own, and which of its root types are
missing. -/
structure IsRead (schema : Schema) : Prop where
  owns : ∃ types directives, schema.Owns types directives
  rootless : ∀ kind : OperationKind, schema.rootTypeName? kind = none →
    schema.isObjectType kind.conventionalName = false

/-- Every union has members, and no enum value has the name of another literal, so that no type or
value is written as something else. -/
def IsPlain (schema : Schema) : Prop :=
  ∀ type ∈ schema.ownTypes, type.form.isPlain = true

instance (schema : Schema) : Decidable schema.IsPlain :=
  inferInstanceAs (Decidable (∀ type ∈ schema.ownTypes, _))

theorem IsPlain.ne_union {schema : Schema} (plain : schema.IsPlain) {type : SchemaType}
    (own : type ∈ schema.ownTypes) : type.form ≠ .union [] := by
  intro empty
  have isPlain := plain type own
  rw [empty] at isPlain
  cases isPlain

theorem IsPlain.enumValue {schema : Schema} (plain : schema.IsPlain) {type : SchemaType}
    (own : type ∈ schema.ownTypes) {values : List EnumValue} (isEnum : type.form = .enum values)
    {value : EnumValue} (member : value ∈ values) : value.name ∉ ["true", "false", "null"] := by
  have isPlain := plain type own
  rw [isEnum, TypeForm.isPlain, List.all_eq_true] at isPlain
  simpa using isPlain value member

theorem setRoots_directives (schema : Schema) (operations : List RootOperation) :
    (setRoots schema operations).directives = schema.directives := by
  unfold setRoots
  induction operations generalizing schema with
  | nil => rfl
  | cons operation rest ih =>
      rw [List.foldl_cons, ih]
      cases operation.kind <;> rfl

theorem isRead_of_ofSource {source : String} {schema : Schema}
    (accepted : ofSource source = .ok schema)
    (respects : ∀ parsed, Document.parse source = .ok parsed →
      ∀ definition ∈ parsed.document.definitions, definition.redefines = false) :
    schema.IsRead := by
  rcases ofSource_eq_ok.mp accepted with ⟨parsed, parses, _, defines⟩
  rcases ofDefinitions_eq_ok.mp defines with ⟨defined, added, rfl, _, _⟩
  rcases addDefinitions_owns owns_initial (respects parsed parses) added with
    ⟨types, directives, owns⟩
  refine ⟨⟨types, directives, ?_, ?_⟩, fun kind none => ?_⟩
  · rw [withConventionalRoots_setRoots_types]
    exact owns.types
  · show OrderedMap.Extends (setRoots defined _).directives _ _ _
    rw [setRoots_directives]
    exact owns.directives
  · rw [rootTypeName?_withConventionalRoots, Option.or_eq_none_iff, objectNamed?] at none
    rw [isObjectType_withConventionalRoots]
    simpa using none.2

/-! ### What can be written -/

theorem contains_of_mem_initial :
    (∀ entry ∈ initial.types, builtInScalars.contains entry.2.name = true) ∧
      ∀ entry ∈ initial.directives, builtInDirectives.contains entry.2.name = true := by
  decide

/-- What is not built in can be written, if it is no union without members. -/
structure HasWritable (schema : Schema) : Prop where
  types : ∀ entry ∈ schema.types, entry ∈ initial.types ∨
    (entry.2.form ≠ .union [] → entry.2.IsWritable)
  directives : ∀ entry ∈ schema.directives, entry ∈ initial.directives ∨ entry.2.IsWritable

theorem HasWritable.addType {schema : Schema} (has : schema.HasWritable) {type : SchemaType}
    (writable : type.form ≠ .union [] → type.IsWritable) : (schema.addType type).HasWritable where
  types entry member := by
    rcases OrderedMap.mem_insert member with rfl | member
    · exact .inr writable
    · exact has.types entry member
  directives := has.directives

theorem HasWritable.addDirective {schema : Schema} (has : schema.HasWritable)
    {directive : SchemaDirective} (writable : directive.IsWritable) :
    (schema.addDirective directive).HasWritable where
  types := has.types
  directives entry member := by
    rcases OrderedMap.mem_insert member with rfl | member
    · exact .inr writable
    · exact has.directives entry member

theorem addDefinitions_hasWritable {definitions : List Definition} {schema defined : Schema}
    (has : schema.HasWritable) (writable : ∀ definition ∈ definitions, definition.IsWritable)
    (added : addDefinitions schema definitions = .ok defined) : defined.HasWritable :=
  addDefinitions_preserves HasWritable
    (fun _ _ member has => has.addType (writable _ member))
    (fun _ _ member has => has.addDirective (writable _ member)) added has

theorem ofSource_hasWritable {source : String} {schema : Schema}
    (accepted : ofSource source = .ok schema) : schema.HasWritable := by
  rcases ofSource_eq_ok.mp accepted with ⟨parsed, parses, quiet, defines⟩
  rcases ofDefinitions_eq_ok.mp defines with ⟨defined, added, rfl, _, _⟩
  have has := addDefinitions_hasWritable ⟨fun _ => .inl, fun _ => .inl⟩
    (Document.isWritable_of_parse parses quiet) added
  refine ⟨?_, ?_⟩
  · rw [withConventionalRoots_setRoots_types]
    exact has.types
  · show ∀ entry ∈ (setRoots defined _).directives, _
    rw [setRoots_directives]
    exact has.directives

/-- What a schema has of its own can be written if it was read and no own union is without members. -/
theorem ofSource_isWritable {source : String} {schema : Schema}
    (accepted : ofSource source = .ok schema)
    (filled : ∀ type ∈ schema.ownTypes, type.form ≠ .union []) : schema.IsWritable := by
  have has := ofSource_hasWritable accepted
  rcases ofSource_eq_ok.mp accepted with ⟨parsed, parses, quiet, defines⟩
  rcases ofDefinitions_eq_ok.mp defines with ⟨defined, added, rfl, _, _⟩
  have writable := Document.isWritable_of_parse parses quiet
  refine ⟨fun kind name root => ?_, fun directive own => ?_, fun type own => ?_⟩
  · rw [rootTypeName?_withConventionalRoots, Option.or_eq_some_iff] at root
    rcases root with root | ⟨_, conventional⟩
    · rcases rootTypeName?_setRoots root with root | ⟨operation, member, rfl⟩
      · rw [rootTypeName?_addDefinitions added] at root
        cases kind <;> cases root
      · rcases List.mem_flatMap.mp member with ⟨definition, known, isRoot⟩
        cases definition with
        | schema definition => exact writable _ known operation isRoot
        | _ => cases isRoot
    · rw [objectNamed?] at conventional
      split at conventional
      · cases conventional
        cases kind <;> decide
      · cases conventional
  · rcases mem_ownDirectives.mp own with ⟨listed, isOwn⟩
    rcases List.mem_map.mp listed with ⟨entry, member, rfl⟩
    rcases has.directives entry member with builtIn | isWritable
    · rw [contains_of_mem_initial.2 entry builtIn] at isOwn
      cases isOwn
    · exact isWritable
  · rcases mem_ownTypes.mp own with ⟨listed, isOwn⟩
    rcases List.mem_map.mp listed with ⟨entry, member, rfl⟩
    rcases has.types entry member with builtIn | isWritable
    · rw [contains_of_mem_initial.1 entry builtIn] at isOwn
      cases isOwn
    · exact isWritable (filled _ own)

section

variable {schema : Schema} {types : OrderedMap SchemaType}
  {directives : OrderedMap SchemaDirective} (owns : schema.Owns types directives)

include owns

theorem Owns.ownTypes_perm : schema.ownTypes.Perm (OrderedMap.values types) := by
  have own := owns.types.filter_values (by decide)
  exact (List.mergeSort_perm _ _).trans (.of_eq own)

theorem Owns.ownDirectives_perm : schema.ownDirectives.Perm (OrderedMap.values directives) := by
  have own := owns.directives.filter_values (by decide)
  exact (List.mergeSort_perm _ _).trans (.of_eq own)

theorem Owns.enumsWritable (writable : schema.IsWritable) (plain : schema.IsPlain) :
    schema.EnumsWritable := by
  intro name has isEnum text isValue
  rcases exists_enum_of_inputForm? isEnum isValue with
    ⟨type, values, value, member, form, valueMember, rfl⟩
  rw [owns.types.same] at member
  rcases List.mem_append.mp member with member | member
  · rcases List.mem_map.mp member with ⟨_, _, same⟩
    cases same
    cases form
  · have own : type ∈ schema.ownTypes :=
      owns.ownTypes_perm.mem_iff.mpr (List.mem_map_of_mem member)
    have formed := (writable.types type own).form
    rw [form] at formed
    exact ⟨(formed value valueMember).name, plain.enumValue own form valueMember⟩

end

end Schema

end GraphQL

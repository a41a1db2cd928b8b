import GraphQL.Proofs.Schema.Conforming
import GraphQL.Proofs.Schema.Owning

/-!
# Possible types

The object types that a value of a named type can have are an object type itself, the object types
that list an interface, and the object types among the members of a union. A schema is accepted
whatever kinds of types are listed as interfaces, and however often, and the possible types of a
name also hold every object type that lists it. So they are the types that a value can have exactly
where only interfaces are listed, each once: for a union it is enough that the object types that
list it are defined before it.
-/

namespace GraphQL

/-- What an object type lists as its interfaces; no other type lists anything that counts. -/
def SchemaType.listed (type : SchemaType) : List String :=
  match type.form with
  | .object _ interfaces => interfaces
  | _ => []

namespace Schema

/-- The object types that list a name, each as often as it does. -/
def listings (name : String) (entries : OrderedMap SchemaType) : List String :=
  entries.flatMap fun entry => List.replicate (entry.2.listed.count name) entry.1

/-- The object types that a value of a named type can have, each once. -/
def coveredTypes (schema : Schema) (name : String) : List String :=
  match (schema.type? name).map SchemaType.form with
  | some (.object ..) => [name]
  | some (.interface ..) =>
      OrderedMap.keys (schema.types.filter fun entry => entry.2.listed.contains name)
  | some (.union members) => (members.filter schema.isObjectType).dedup
  | _ => []

/-- Object types list the name at most once each if it is an interface, and not at all if it is
another type; a union counts only those after it, and has no member twice. -/
def IsListedWell (schema : Schema) (name : String) : Prop :=
  match (schema.type? name).map SchemaType.form with
  | none => True
  | some (.interface ..) => ∀ entry ∈ schema.types, entry.2.listed.count name ≤ 1
  | some (.union members) =>
      (members.filter schema.isObjectType).Nodup ∧
        ∀ entry ∈ schema.types.dropWhile (·.1 != name), name ∉ entry.2.listed
  | some _ => ∀ entry ∈ schema.types, name ∉ entry.2.listed

/-! ## Listings -/

theorem listings_eq_nil {name : String} {entries : OrderedMap SchemaType} :
    listings name entries = [] ↔ ∀ entry ∈ entries, name ∉ entry.2.listed := by
  simp [listings, List.flatMap_eq_nil_iff, List.replicate_eq_nil_iff, List.count_eq_zero]

theorem length_filter_le_length_listings (name : String) (entries : OrderedMap SchemaType) :
    (entries.filter fun entry => entry.2.listed.contains name).length ≤
      (listings name entries).length := by
  induction entries with
  | nil => simp
  | cons entry entries ih =>
      have positive : entry.2.listed.contains name = true → 0 < entry.2.listed.count name := by
        intro contained
        exact List.count_pos_iff.mpr (List.contains_iff_mem.mp contained)
      simp only [listings, List.flatMap_cons, List.length_append, List.length_replicate] at ih ⊢
      rw [List.filter_cons]
      split
      · rename_i contained
        have more := positive contained
        rw [List.length_cons]
        omega
      · omega

/-- Every object type that lists a name stands for itself once, if none lists it twice. -/
theorem listings_eq_keys_filter {name : String} {entries : OrderedMap SchemaType} :
    listings name entries =
        OrderedMap.keys (entries.filter fun entry => entry.2.listed.contains name) ↔
      ∀ entry ∈ entries, entry.2.listed.count name ≤ 1 := by
  induction entries with
  | nil => simp [listings]
  | cons entry entries ih =>
      have least := length_filter_le_length_listings name entries
      have unfolded : listings name (entry :: entries) =
          List.replicate (entry.2.listed.count name) entry.1 ++ listings name entries := rfl
      rw [List.forall_mem_cons, ← ih, unfolded]
      by_cases isListed : name ∈ entry.2.listed
      · have positive := List.count_pos_iff.mpr isListed
        rw [List.filter_cons_of_pos (by simpa using isListed), OrderedMap.keys_cons]
        constructor
        · intro same
          have lengths := congrArg List.length same
          simp only [List.length_append, List.length_replicate, List.length_cons,
            OrderedMap.keys, List.length_map] at lengths
          have single : entry.2.listed.count name = 1 := by omega
          rw [single, List.replicate_one, List.singleton_append] at same
          exact ⟨single.le, (List.cons.inj same).2⟩
        · rintro ⟨atMost, same⟩
          have single : entry.2.listed.count name = 1 := by omega
          rw [single, List.replicate_one, List.singleton_append, same]
      · have absent := List.count_eq_zero.mpr isListed
        rw [List.filter_cons_of_neg (by simpa using isListed), absent, List.replicate_zero,
          List.nil_append]
        simp

variable {schema : Schema} {name : String}

/-! ## Adding up the possible types -/

/-- What an entry adds to the possible types of a name that is no union. -/
def addition (name : String) (entry : String × SchemaType) : List String :=
  (if entry.1 = name ∧ entry.2.isObject = true then [entry.1] else []) ++
    List.replicate (entry.2.listed.count name) entry.1

theorem addPossible_eq_append {entry : String × SchemaType} {known : List String}
    (noUnion : entry.1 = name → ∀ members, entry.2.form ≠ .union members) :
    schema.addPossible name known entry = known ++ addition name entry := by
  rcases entry with ⟨key, ⟨typeName, description, form⟩⟩
  cases form with
  | object fields interfaces =>
      have copies : ((interfaces.filter (· == name)).map fun _ => key) =
          List.replicate (interfaces.count name) key := by
        rw [List.map_const', ← List.countP_eq_length_filter]
        rfl
      simp only [addPossible, addition, SchemaType.listed, SchemaType.isObject, copies, and_true]
      split <;> simp
  | union members =>
      have other : key ≠ name := fun same => noUnion same members rfl
      simp [addPossible, addition, SchemaType.listed, SchemaType.isObject, other]
  | _ => simp [addPossible, addition, SchemaType.listed, SchemaType.isObject]

theorem foldl_addPossible {entries : OrderedMap SchemaType} {known : List String}
    (noUnion : ∀ entry ∈ entries, entry.1 = name → ∀ members, entry.2.form ≠ .union members) :
    entries.foldl (schema.addPossible name) known = known ++ entries.flatMap (addition name) := by
  induction entries generalizing known with
  | nil => simp
  | cons entry entries ih =>
      rw [List.forall_mem_cons] at noUnion
      rw [List.foldl_cons, ih noUnion.2, addPossible_eq_append noUnion.1, List.flatMap_cons,
        List.append_assoc]

/-- Where no object type has the name, only listings are added. -/
theorem flatMap_addition_of_not_object {entries : OrderedMap SchemaType}
    (noObject : ∀ entry ∈ entries, entry.1 = name → entry.2.isObject = false) :
    entries.flatMap (addition name) = listings name entries := by
  refine List.flatMap_congr fun entry member => ?_
  have other : ¬(entry.1 = name ∧ entry.2.isObject = true) := by
    rintro ⟨same, isObject⟩
    rw [noObject entry member same] at isObject
    cases isObject
  rw [addition, if_neg other, List.nil_append]

section

variable (wellFormed : schema.IsWellFormed) {type : SchemaType}
  (found : schema.type? name = some type)

include wellFormed found

/-- A type stands in one place among the types. -/
theorem IsWellFormed.exists_types_eq : ∃ before after,
    schema.types = before ++ (name, type) :: after ∧
      (∀ entry ∈ before, entry.1 ≠ name) ∧ ∀ entry ∈ after, entry.1 ≠ name := by
  rcases List.append_of_mem (OrderedMap.mem_of_find? found) with ⟨before, after, split⟩
  have distinct := wellFormed.distinct
  simp only [split, OrderedMap.keys, List.map_append, List.map_cons, List.nodup_append,
    List.nodup_cons] at distinct
  rcases distinct with ⟨_, ⟨notAfter, _⟩, notBefore⟩
  refine ⟨before, after, split, fun entry member same => ?_, fun entry member same => ?_⟩
  · exact notBefore _ (List.mem_map_of_mem member) _ List.mem_cons_self same
  · exact notAfter (same ▸ List.mem_map_of_mem member)

/-- An object type is added once by itself, beside the listings. -/
theorem flatMap_addition_perm (isObject : type.isObject = true) :
    (schema.types.flatMap (addition name)).Perm (name :: listings name schema.types) := by
  rcases wellFormed.exists_types_eq found with ⟨before, after, split, notBefore, notAfter⟩
  have own : (schema.types.flatMap fun entry =>
      if entry.1 = name ∧ entry.2.isObject = true then [entry.1] else []) = [name] := by
    have others (entries : OrderedMap SchemaType) (other : ∀ entry ∈ entries, entry.1 ≠ name) :
        (entries.flatMap fun entry =>
          if entry.1 = name ∧ entry.2.isObject = true then [entry.1] else []) = [] := by
      refine List.flatMap_eq_nil_iff.mpr fun entry member => ?_
      exact if_neg fun holds => other entry member holds.1
    rw [split, List.flatMap_append, List.flatMap_cons, others before notBefore,
      others after notAfter, if_pos ⟨rfl, isObject⟩]
    rfl
  rw [← List.singleton_append, ← own]
  exact (List.flatMap_append_perm _ _ _).symm

theorem possibleTypes_perm_of_object (isObject : type.isObject = true) :
    (schema.possibleTypes name).Perm (name :: listings name schema.types) := by
  have noUnion : ∀ entry ∈ schema.types, entry.1 = name →
      ∀ members, entry.2.form ≠ .union members := by
    rintro entry member rfl members isUnion
    obtain rfl := Option.some.inj ((wellFormed.type?_of_mem member).symm.trans found)
    rw [SchemaType.isObject, isUnion] at isObject
    cases isObject
  rw [possibleTypes, foldl_addPossible noUnion, List.nil_append]
  exact flatMap_addition_perm wellFormed found isObject

/-- What lists a union before it is forgotten. -/
theorem possibleTypes_of_union {members : List String} (isUnion : type.form = .union members) :
    schema.possibleTypes name = members.filter schema.isObjectType ++
      listings name (schema.types.dropWhile (·.1 != name)) := by
  rcases wellFormed.exists_types_eq found with ⟨before, after, split, notBefore, notAfter⟩
  have dropped : schema.types.dropWhile (·.1 != name) = (name, type) :: after := by
    rw [split, List.dropWhile_append_of_pos (by simpa using notBefore),
      List.dropWhile_cons_of_neg (by simp)]
  have listsNothing : type.listed = [] := by
    rw [SchemaType.listed, isUnion]
  have ofAfter : listings name ((name, type) :: after) = listings name after := by
    simp [listings, listsNothing]
  have replaced (known : List String) :
      schema.addPossible name known (name, type) = members.filter schema.isObjectType := by
    rw [addPossible, isUnion]
    exact if_pos rfl
  rw [dropped, ofAfter, possibleTypes, split, List.foldl_append, List.foldl_cons, replaced,
    foldl_addPossible fun entry member same => absurd same (notAfter entry member),
    flatMap_addition_of_not_object fun entry member same => absurd same (notAfter entry member)]

end

/-- Of a name that neither an object type nor a union has, the possible types are what lists it. -/
theorem possibleTypes_of_other (wellFormed : schema.IsWellFormed)
    (other : ∀ type, schema.type? name = some type →
      type.isObject = false ∧ ∀ members, type.form ≠ .union members) :
    schema.possibleTypes name = listings name schema.types := by
  have known : ∀ entry ∈ schema.types, entry.1 = name → schema.type? name = some entry.2 := by
    rintro entry member rfl
    exact wellFormed.type?_of_mem member
  have noObject : ∀ entry ∈ schema.types, entry.1 = name → entry.2.isObject = false :=
    fun entry member same => (other _ (known entry member same)).1
  have noUnion : ∀ entry ∈ schema.types, entry.1 = name →
      ∀ members, entry.2.form ≠ .union members :=
    fun entry member same => (other _ (known entry member same)).2
  rw [possibleTypes, foldl_addPossible noUnion, List.nil_append,
    flatMap_addition_of_not_object noObject]

/-- No type lists an unknown name. -/
theorem IsWellFormed.listings_eq_nil_of_unknown (wellFormed : schema.IsWellFormed)
    (unknown : schema.type? name = none) : listings name schema.types = [] := by
  refine listings_eq_nil.mpr fun entry member isListed => ?_
  have isReference : (name, entry.1) ∈ references entry.1 entry.2 := by
    unfold SchemaType.listed at isListed
    unfold references
    split at isListed
    · rename_i fields interfaces isObject
      rw [isObject]
      exact List.mem_append_left _ (List.mem_map_of_mem isListed)
    · cases isListed
  have known := wellFormed.referencesKnown entry member _ isReference
  rw [unknown] at known
  cases known

/-- The possible types of a name are the types that a value can have exactly if the name is listed
well. -/
theorem IsWellFormed.possibleTypes_eq_iff (wellFormed : schema.IsWellFormed) (name : String) :
    schema.possibleTypes name = schema.coveredTypes name ↔ schema.IsListedWell name := by
  unfold coveredTypes IsListedWell
  cases found : schema.type? name with
  | none =>
      have other : ∀ type, schema.type? name = some type →
          type.isObject = false ∧ ∀ members, type.form ≠ .union members := by
        simp [found]
      simp [possibleTypes_of_other wellFormed other, wellFormed.listings_eq_nil_of_unknown found]
  | some type =>
      have others (noObject : type.isObject = false)
          (noUnion : ∀ members, type.form ≠ .union members) :
          schema.possibleTypes name = listings name schema.types := by
        refine possibleTypes_of_other wellFormed fun other known => ?_
        obtain rfl := Option.some.inj (found.symm.trans known)
        exact ⟨noObject, noUnion⟩
      simp only [Option.map_some]
      cases form : type.form with
      | object fields interfaces =>
          have isObject : type.isObject = true := by simp [SchemaType.isObject, form]
          have perm := possibleTypes_perm_of_object wellFormed found isObject
          simp only
          rw [← listings_eq_nil]
          constructor
          · intro same
            have lengths := perm.length_eq
            rw [same, List.length_singleton, List.length_cons] at lengths
            exact List.length_eq_zero_iff.mp (by omega)
          · intro unlisted
            rw [unlisted] at perm
            exact List.perm_singleton.mp perm
      | interface fields interfaces =>
          simp only
          rw [others (by simp [SchemaType.isObject, form]) (by simp [form]),
            listings_eq_keys_filter]
      | union members =>
          simp only
          rw [possibleTypes_of_union wellFormed found form, ← listings_eq_nil]
          constructor
          · intro same
            have lengths := congrArg List.length same
            have shorter := (List.dedup_sublist (members.filter schema.isObjectType)).length_le
            rw [List.length_append] at lengths
            have unlisted := List.length_eq_zero_iff.mp
              (show (listings name (schema.types.dropWhile (·.1 != name))).length = 0 by omega)
            rw [unlisted, List.append_nil] at same
            exact ⟨List.dedup_eq_self.mp same.symm, unlisted⟩
          · rintro ⟨distinct, unlisted⟩
            rw [unlisted, List.append_nil, distinct.dedup]
      | _ =>
          simp only
          rw [others (by simp [SchemaType.isObject, form]) (by simp [form]), listings_eq_nil]

/-- Where only interfaces are implemented, each once, and no union has a member twice, every name is
listed well. -/
theorem IsConforming.isListedWell (conforming : schema.IsConforming)
    (once : ∀ entry ∈ schema.types, entry.2.listed.Nodup)
    (membersOnce : ∀ entry ∈ schema.types, ∀ members, entry.2.form = .union members →
      members.Nodup) (name : String) : schema.IsListedWell name := by
  have subset (type : SchemaType) (listed : name ∈ type.listed) : name ∈ type.interfaces := by
    unfold SchemaType.listed at listed
    unfold SchemaType.interfaces
    split at listed
    · rename_i form
      simpa only [form] using listed
    · cases listed
  have unlisted (type : SchemaType) (found : schema.type? name = some type)
      (noInterface : type.isInterface = false) : ∀ entry ∈ schema.types, name ∉ entry.2.listed := by
    intro entry member listed
    rcases conforming.interfaces entry member name (subset _ listed) with
      ⟨other, known, isInterface⟩
    obtain rfl := Option.some.inj (found.symm.trans known)
    cases noInterface.symm.trans isInterface
  unfold IsListedWell
  cases found : schema.type? name with
  | none => exact trivial
  | some type =>
      rw [Option.map_some]
      cases form : type.form with
      | interface fields interfaces =>
          exact fun entry member => List.nodup_iff_count_le_one.mp (once entry member) name
      | union members =>
          have never := unlisted type found (by simp [SchemaType.isInterface, form])
          refine ⟨?_, fun entry later => never entry (List.dropWhile_subset _ later)⟩
          exact (membersOnce _ (OrderedMap.mem_of_find? found) members form).filter _
      | _ => exact unlisted type found (by simp [SchemaType.isInterface, form])

/-! ## Schemas that are read -/

/-- The types that some definitions add to the built-in ones, in order. -/
def ownTypeNames (definitions : List Definition) : List String :=
  definitions.filterMap fun
    | .type definition =>
        if builtInScalars.contains definition.name.text then none else some definition.name.text
    | _ => none

/-- Types stand in the order of their definitions; a built-in scalar that is defined again keeps its
place. -/
theorem keys_addDefinitions {definitions : List Definition} {schema defined : Schema}
    (builtIn : builtInScalars ⊆ OrderedMap.keys schema.types)
    (added : addDefinitions schema definitions = .ok defined) :
    OrderedMap.keys defined.types = OrderedMap.keys schema.types ++ ownTypeNames definitions := by
  induction definitions generalizing schema with
  | nil =>
      cases added
      exact (List.append_nil _).symm
  | cons definition rest ih =>
      cases definition with
      | schema definition => exact ih builtIn added
      | type definition =>
          simp only [addDefinitions] at added
          split at added
          · cases added
          · rename_i isNew
            have keys := OrderedMap.keys_insert schema.types definition.name.text
              definition.toSchemaType
            by_cases isBuiltIn : definition.name.text ∈ builtInScalars
            · rw [if_pos (builtIn isBuiltIn)] at keys
              have later := ih (keys.symm ▸ builtIn) added
              rw [later, ownTypeNames, ownTypeNames, List.filterMap_cons_none (by simp [isBuiltIn])]
              exact congrArg (· ++ _) keys
            · have notKnown : definition.name.text ∉ OrderedMap.keys schema.types := by
                intro known
                apply isNew
                rw [Bool.and_eq_true, OrderedMap.contains, Option.isSome_iff_ne_none, Ne,
                  OrderedMap.find?_eq_none_iff, not_not]
                exact ⟨known, by simpa [TypeDefinition.toSchemaType] using isBuiltIn⟩
              rw [if_neg notKnown] at keys
              have later := ih (keys.symm ▸ List.subset_append_of_subset_left _ builtIn) added
              have named : ownTypeNames (.type definition :: rest) =
                  definition.name.text :: ownTypeNames rest :=
                List.filterMap_cons_some (by simp [isBuiltIn])
              rw [later, named, List.append_cons]
              exact congrArg (· ++ _) keys
      | directive definition =>
          rw [addDefinitions] at added
          exact @ih (schema.addDirective definition.toSchemaDirective) builtIn added
      | operation definition => cases added
      | fragment definition => cases added

/-- Among the types, which stand in the order of their definitions, the possible types of a name are
those that a value of it can have, for exactly the names that are listed well. -/
theorem possibleTypes_exact {source : String} {schema : Schema}
    (accepted : ofSource source = .ok schema) :
    (∃ parsed, Document.parse source = .ok parsed ∧ OrderedMap.keys schema.types =
        builtInScalars ++ ownTypeNames parsed.document.definitions) ∧
      ∀ name, schema.possibleTypes name = schema.coveredTypes name ↔ schema.IsListedWell name := by
  rcases ofSource_eq_ok.mp accepted with ⟨parsed, parses, _, defines⟩
  rcases ofDefinitions_eq_ok.mp defines with ⟨defined, added, rfl, _⟩
  refine ⟨⟨parsed, parses, ?_⟩, (ofSource_isWellFormed accepted).possibleTypes_eq_iff⟩
  rw [withConventionalRoots_setRoots_types]
  exact keys_addDefinitions (by decide) added

namespace ListedTypes

/-- The union stands before its members, and only interfaces are listed, each once. -/
def source : String :=
  "union Pet = Cat | Dog | Int interface Named \x7b name: ID \x7d
  type Dog implements Named & Being \x7b name: ID \x7d type Query \x7b pet: Pet \x7d
  interface Being \x7b name: ID \x7d type Cat implements Named \x7b name: ID \x7d"

theorem evaluation : (ofSource source).toOption.any (fun schema =>
    schema.possibleTypes "Pet" == ["Cat", "Dog"] && schema.coveredTypes "Pet" == ["Cat", "Dog"] &&
      schema.possibleTypes "Named" == ["Dog", "Cat"] &&
      schema.coveredTypes "Named" == ["Dog", "Cat"] && decide schema.IsConforming &&
      (schema.types.all fun entry => decide entry.2.listed.Nodup) &&
      schema.types.all fun entry => match entry.2.form with
        | .union members => decide members.Nodup
        | _ => true) = true := by
  decide +kernel

/-- As the schema is conforming, all other names have the right possible types, too. -/
theorem pets_listed_well : ∃ schema, ofSource source = .ok schema ∧
    (∃ parsed, Document.parse source = .ok parsed ∧ OrderedMap.keys schema.types =
      builtInScalars ++ ownTypeNames parsed.document.definitions) ∧
    (schema.IsListedWell "Pet" ∧ schema.IsListedWell "Named") ∧
    ∀ name, schema.possibleTypes name = schema.coveredTypes name := by
  rcases exists_ok_of_any evaluation with ⟨schema, accepted, evaluated⟩
  simp only [Bool.and_eq_true, beq_iff_eq, decide_eq_true_eq, List.all_eq_true] at evaluated
  rcases evaluated with ⟨⟨⟨⟨⟨⟨pets, pet⟩, named⟩, name⟩, conforming⟩, once⟩, membersOnce⟩
  rcases possibleTypes_exact accepted with ⟨ordered, exact⟩
  refine ⟨schema, accepted, ordered, ⟨(exact "Pet").mp (pets.trans pet.symm),
    (exact "Named").mp (named.trans name.symm)⟩, fun name => (exact name).mpr ?_⟩
  refine conforming.isListedWell once (fun entry member members isUnion => ?_) name
  have distinct := membersOnce entry member
  rw [isUnion] at distinct
  exact of_decide_eq_true distinct

end ListedTypes

namespace MislistedTypes

/-- An object type, a scalar and a union are listed, and an interface is listed twice. -/
def source : String :=
  "interface I \x7b a: Int \x7d union U = A
  type A implements I & I & U & String \x7b a: Int \x7d
  type B implements A \x7b a: Int \x7d type Query \x7b a: Int \x7d"

theorem evaluation : (ofSource source).toOption.any (fun schema =>
    ["A", "I", "U", "String"].map schema.possibleTypes ==
        [["A", "B"], ["A", "A"], ["A", "A"], ["A"]] &&
      ["A", "I", "U", "String"].map schema.coveredTypes == [["A"], ["A"], ["A"], []]) = true := by
  decide +kernel

/-- For each of the four kinds of names the possible types can be others than those of a value. -/
theorem listed_wrongly : ∃ schema, ofSource source = .ok schema ∧
    ∀ name ∈ ["A", "I", "U", "String"], schema.possibleTypes name ≠ schema.coveredTypes name := by
  rcases exists_ok_of_any evaluation with ⟨schema, accepted, evaluated⟩
  simp only [Bool.and_eq_true, beq_iff_eq, List.map_cons, List.map_nil, List.cons.injEq,
    and_true] at evaluated
  rcases evaluated with ⟨⟨ofObject, ofInterface, ofUnion, ofScalar⟩,
    ⟨object, interface, union, scalar⟩⟩
  refine ⟨schema, accepted, ?_⟩
  simp [ofObject, ofInterface, ofUnion, ofScalar, object, interface, union, scalar]

end MislistedTypes

end Schema

end GraphQL

import GraphQL.Proofs.Coercion.Relating
import GraphQL.Proofs.Schema.Reading

/-!
# When coercion ends

Nothing but defaults makes a coercion longer than its value: a default may leave out a field whose
default leaves out a field in turn. Coercion without any bound on that ends exactly if the default of
no field is needed for itself, so a bounded coercion reports an endless default only where the
unbounded one never ends. A schema may well have such defaults; if it has none, every coercion ends.
-/

namespace GraphQL

/-- A value as a value of a type, as if defaults needed one another only so deep. -/
def coerceNested (schema : Schema) : Nat → TypeRef → Json → Except CoercionError Json
  | 0 => coerceBy schema fun name _ _ => .error (.endlessDefault name.1 name.2)
  | depth + 1 => coerceBy schema fun _ => coerceNested schema depth

/-- Coercion ends if defaults are left to need one another as deep as they do. -/
def Schema.CoercionEnds (schema : Schema) (type : TypeRef) (value : Json) : Prop :=
  ∃ depth, isEndless (coerceNested schema depth type value) = false

/-! ## Going deeper -/

/-- The second result is the first one, unless the first was not reached. -/
def Refines (α : Type) (first second : Except CoercionError α) : Prop :=
  isEndless first = true ∨ second = first

instance : IsKeptByCoercion Refines where
  ended _ := .inr rfl
  bind := by
    rintro α β (error | value) second next otherNext (endless | rfl) related
    · exact .inl endless
    · exact .inr rfl
    · cases endless
    · exact related value
  inField := by
    rintro α (error | value) second typeName name (endless | rfl)
    · exact .inl endless
    · exact .inr rfl
    · cases endless
    · exact .inr rfl

/-- The first coercion has ended, and the second one has the same result. -/
def EndsAs (α : Type) (first second : Except CoercionError α) : Prop :=
  isEndless first = false ∧ second = first

instance : IsKeptByCoercion EndsAs where
  ended isEnded := ⟨isEnded, rfl⟩
  bind := by
    rintro α β (error | value) second next otherNext ⟨ended, rfl⟩ related
    · exact ⟨ended, rfl⟩
    · exact related value
  inField := by
    rintro α (error | value) second typeName name ⟨ended, rfl⟩
    · exact ⟨ended, rfl⟩
    · exact ⟨rfl, rfl⟩

variable {schema : Schema}

theorem coerceNested_refines_succ (depth : Nat) (type : TypeRef) (value : Json) :
    Refines Json (coerceNested schema depth type value)
      (coerceNested schema (depth + 1) type value) := by
  induction depth generalizing type value with
  | zero => exact coerceBy_related (fun _ => .inl rfl) type value
  | succ depth ih => exact coerceBy_related (fun _ => ih _ _) type value

/-- A result that is reached is the same however much deeper defaults may go. -/
theorem coerceNested_of_le {depth deeper : Nat} (below : depth ≤ deeper) {type : TypeRef}
    {value : Json} (ended : isEndless (coerceNested schema depth type value) = false) :
    coerceNested schema deeper type value = coerceNested schema depth type value := by
  induction below with
  | refl => rfl
  | @step deeper below ih =>
      rcases @coerceNested_refines_succ schema deeper type value with endless | same
      · rw [ih, ended] at endless
        cases endless
      · rw [same, ih]

/-! ## Using defaults up -/

/-- Each default uses up one of those that are left, so no more of them need one another. -/
theorem coerceWith_refines (defaults : List InputFieldName) (type : TypeRef) (value : Json) :
    Refines Json (coerceWith schema defaults type value)
      (coerceNested schema defaults.length type value) := by
  generalize isLength : defaults.length = depth
  induction depth generalizing defaults type value with
  | zero =>
      cases List.length_eq_zero_iff.mp isLength
      rw [coerceWith]
      exact coerceBy_related (fun _ => .inl (by simp [isEndless, CoercionError.isEndless])) type value
  | succ depth ih =>
      rw [coerceWith]
      refine coerceBy_related (fun {name _ _} _ => ?_) type value
      by_cases unused : name ∈ defaults
      · rw [dif_pos unused]
        exact ih _ _ _ (by rw [List.length_erase_of_mem unused, isLength]; rfl)
      · rw [dif_neg unused]
        exact .inl rfl

/-- A field has one default, at its own type. -/
theorem Schema.HasDefault.unique (keyed : ∀ entry ∈ schema.types, entry.2.form.IsKeyed)
    {name : InputFieldName} {type otherType : TypeRef} {value otherValue : Json}
    (first : schema.HasDefault name type value)
    (second : schema.HasDefault name otherType otherValue) :
    otherType = type ∧ otherValue = value := by
  cases first with
  | @intro typeName fieldName fields field value isInput declared hasDefault =>
  cases second with
  | @intro _ _ otherFields otherField otherValue otherIsInput otherDeclared otherDefault =>
  cases Option.some.inj (isInput.symm.trans otherIsInput)
  have distinct := nodup_keys_inputObject keyed isInput
  cases OrderedMap.eq_of_mem_of_mem distinct otherDeclared declared
  exact ⟨rfl, Option.some.inj (otherDefault.symm.trans hasDefault)⟩

/-- Every field with a default is among those that may be filled in. -/
theorem Schema.HasDefault.mem {name : InputFieldName} {type : TypeRef} {value : Json}
    (default : schema.HasDefault name type value) : name ∈ schema.inputFieldNames := by
  cases default with
  | @intro typeName fieldName fields field value isInput declared hasDefault =>
  obtain ⟨entry, found, isForm⟩ := Option.map_eq_some_iff.mp isInput
  refine List.mem_flatMap.mpr ⟨(typeName, entry), OrderedMap.mem_of_find? found, ?_⟩
  simp only [isForm]
  exact List.mem_map.mpr ⟨fieldName, List.mem_map.mpr ⟨_, declared, rfl⟩, rfl⟩

/-- What is reached at some depth is reached by using defaults up. Those that are used up are not
needed again: none of them is reached where defaults may go less deep than here, and one that needed
itself would be. -/
theorem coerceNested_refines (keyed : ∀ entry ∈ schema.types, entry.2.form.IsKeyed) (depth : Nat)
    (defaults : List InputFieldName)
    (used : ∀ name type value, schema.HasDefault name type value → name ∉ defaults →
      ∀ below < depth, isEndless (coerceNested schema below type value) = true)
    (type : TypeRef) (value : Json) :
    Refines Json (coerceNested schema depth type value) (coerceWith schema defaults type value) := by
  induction depth using Nat.strongRecOn generalizing defaults type value with
  | ind depth ih =>
  rw [coerceWith]
  cases depth with
  | zero => exact coerceBy_related (fun _ => .inl rfl) type value
  | succ depth =>
      refine coerceBy_related (fun {name inner default} declared => ?_) type value
      cases reached : isEndless (coerceNested schema depth inner default) with
      | true => exact .inl reached
      | false =>
          have unused : name ∈ defaults := by
            by_contra isUsed
            rw [used name inner default declared isUsed depth (Nat.lt_succ_self depth)] at reached
            cases reached
          have ends : ∃ least, isEndless (coerceNested schema least inner default) = false :=
            ⟨depth, reached⟩
          have below : Nat.find ends ≤ depth := Nat.find_min' ends reached
          rw [dif_pos unused, coerceNested_of_le below (Nat.find_spec ends)]
          refine ih _ (Nat.lt_succ_of_le below) _ ?_ inner default
          intro other otherType otherValue otherDeclared isUsed less lessDeep
          by_cases same : other = name
          · subst same
            obtain ⟨rfl, rfl⟩ := declared.unique keyed otherDeclared
            simpa using Nat.find_min ends lessDeep
          · have isUsed : other ∉ defaults :=
              fun member => isUsed ((List.mem_erase_of_ne same).mpr member)
            exact used other otherType otherValue otherDeclared isUsed less (by omega)

/-- A result that is reached at any depth is the value's. -/
theorem coerceValue_of_ended (keyed : ∀ entry ∈ schema.types, entry.2.form.IsKeyed)
    {depth : Nat} {type : TypeRef} {value : Json}
    (ended : isEndless (coerceNested schema depth type value) = false) :
    coerceValue schema type value = coerceNested schema depth type value := by
  have all := coerceNested_refines keyed depth schema.inputFieldNames
    (fun _ _ _ declared isUsed => absurd declared.mem isUsed) type value
  rcases all with endless | same
  · rw [ended] at endless
    cases endless
  · exact same

/-- Coercion ends exactly if it does so before defaults need one another deeper than there are
fields. -/
theorem coercionEnds_iff (keyed : ∀ entry ∈ schema.types, entry.2.form.IsKeyed) {type : TypeRef}
    {value : Json} :
    schema.CoercionEnds type value ↔ isEndless (coerceValue schema type value) = false := by
  constructor
  · rintro ⟨depth, ended⟩
    rw [coerceValue_of_ended keyed ended]
    exact ended
  · intro ended
    refine ⟨schema.inputFieldNames.length, ?_⟩
    rcases @coerceWith_refines schema schema.inputFieldNames type value with endless | same
    · cases ended.symm.trans endless
    · rw [same]
      exact ended

/-- Where the coercions of all defaults end, every coercion does: it needs no default but those. -/
theorem coercionEnds_of_defaults (keyed : ∀ entry ∈ schema.types, entry.2.form.IsKeyed)
    (ends : ∀ name type value, schema.HasDefault name type value → schema.CoercionEnds type value)
    (type : TypeRef) (value : Json) : schema.CoercionEnds type value := by
  refine ⟨schema.inputFieldNames.length + 1, ?_⟩
  have ended : EndsAs Json
      (coerceNested schema (schema.inputFieldNames.length + 1) type value)
      (coerceNested schema (schema.inputFieldNames.length + 1) type value) := by
    refine coerceBy_related (fun {name inner default} declared => ⟨?_, rfl⟩) type value
    have ended := (coercionEnds_iff keyed).mp (ends name inner default declared)
    rcases @coerceWith_refines schema schema.inputFieldNames inner default with
      endless | same
    · cases ended.symm.trans endless
    · rw [same]
      exact ended
  exact ended.1

theorem isEndless_coerceArgument (ends : ∀ type value, isEndless (coerceValue schema type value) = false)
    (argument : InputValue) (given : Option Json) :
    isEndless (coerceArgument schema argument given) = false := by
  unfold coerceArgument
  split
  · rename_i value _
    have ended := ends argument.type value
    cases coerced : coerceValue schema argument.type value with
    | error error =>
        rw [coerced] at ended
        exact ended
    | ok coerced => rfl
  · split <;> rfl

namespace Schema

/-- Coercion ends for a value exactly where no default is reported to need itself, and then with the
same result. It ends for all values, and so for all arguments, exactly if it ends for the defaults of
the schema. -/
theorem coercion_ends {source : String} {schema : Schema} (accepted : ofSource source = .ok schema) :
    (∀ type value, schema.CoercionEnds type value ↔
      isEndless (coerceValue schema type value) = false) ∧
    (∀ depth type value, isEndless (coerceNested schema depth type value) = false →
      coerceValue schema type value = coerceNested schema depth type value) ∧
    ((∀ type value, schema.CoercionEnds type value) ↔
      ∀ name type value, schema.HasDefault name type value → schema.CoercionEnds type value) ∧
    ((∀ type value, schema.CoercionEnds type value) →
      ∀ argument given, isEndless (coerceArgument schema argument given) = false) := by
  have keyed := (ofSource_isKeyed accepted).forms
  refine ⟨fun type value => coercionEnds_iff keyed,
    fun depth type value ended => coerceValue_of_ended keyed ended,
    ⟨fun ends name type value _ => ends type value, coercionEnds_of_defaults keyed⟩,
    fun ends argument given => ?_⟩
  exact isEndless_coerceArgument
    (fun type value => (coercionEnds_iff keyed).mp (ends type value)) argument given

namespace FiniteDefaults

/-- The default of the first field takes the defaults of the others. -/
def source : String :=
  "input A \x7b a: [A] = \x7ba: [], b: 2\x7d b: Int = 1 \x7d type Query \x7b f(x: A): Int \x7d"

theorem evaluation : (ofSource source).toOption.any (fun schema =>
    !isEndless (coerceValue schema (.named "A") (.object []))) = true := by
  cbv

theorem coercion_ends_here : ∃ schema, ofSource source = .ok schema ∧
    schema.CoercionEnds (.named "A") (.object []) := by
  have ended := evaluation
  cases accepted : ofSource source with
  | error error =>
      rw [accepted] at ended
      cases ended
  | ok schema =>
      rw [accepted] at ended
      have ended : isEndless (coerceValue schema (.named "A") (.object [])) = false := by
        simpa [Except.toOption] using ended
      exact ⟨schema, rfl, ((coercion_ends accepted).1 _ _).mpr ended⟩

end FiniteDefaults

namespace EndlessDefault

/-- The default of a field leaves the same field out. -/
def source : String :=
  "input A \x7b a: A = \x7b\x7d \x7d type Query \x7b f(x: A): Int \x7d"

theorem evaluation : (ofSource source).toOption.any (fun schema =>
    isEndless (coerceValue schema (.named "A") (.object []))) = true := by
  cbv

/-- The schema is accepted, and the coercion of an empty object never ends. -/
theorem coercion_never_ends : ∃ schema, ofSource source = .ok schema ∧
    ¬ schema.CoercionEnds (.named "A") (.object []) := by
  have endless := evaluation
  cases accepted : ofSource source with
  | error error =>
      rw [accepted] at endless
      cases endless
  | ok schema =>
      rw [accepted] at endless
      refine ⟨schema, rfl, fun ends => ?_⟩
      rw [coercionEnds_iff (ofSource_isKeyed accepted).forms] at ends
      cases ends.symm.trans (show isEndless _ = true from endless)

end EndlessDefault

end Schema

end GraphQL

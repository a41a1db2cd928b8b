import GraphQL.Proofs.Schema.Defaults

/-!
# What a content depends on

Neither descriptions nor the order of what has a name matter to what a schema says, and what it says
is in order already. So two schemas say the same as soon as one of them without its descriptions has
the types and directives of what the other one says, in any order.
-/

namespace GraphQL

/-! ## Sorting by name -/

section

variable {α : Type} {name : α → String}

theorem pairwise_mergeSort_name (items : List α) :
    (items.mergeSort fun left right => decide (name left ≤ name right)).Pairwise
      fun left right => decide (name left ≤ name right) = true := by
  refine List.pairwise_mergeSort (fun a b c first second => ?_) (fun a b => ?_) items
  · exact decide_eq_true (String.le_trans (of_decide_eq_true first) (of_decide_eq_true second))
  · rcases String.le_total (name a) (name b) with less | less <;> simp [less]

/-- What is in order stays as it is. -/
theorem mergeSort_mergeSort_name (items : List α) :
    (items.mergeSort fun left right => decide (name left ≤ name right)).mergeSort
        (fun left right => decide (name left ≤ name right)) =
      items.mergeSort fun left right => decide (name left ≤ name right) :=
  List.mergeSort_of_pairwise (pairwise_mergeSort_name items)

/-- Items with different names have one order. -/
theorem mergeSort_name_of_perm {items others : List α} (perm : items.Perm others)
    (distinct : (items.map name).Nodup) :
    (items.mergeSort fun left right => decide (name left ≤ name right)) =
      others.mergeSort fun left right => decide (name left ≤ name right) := by
  refine List.Perm.eq_of_pairwise (fun a b isItem isOther less more => ?_)
    (pairwise_mergeSort_name items) (pairwise_mergeSort_name others)
    ((List.mergeSort_perm items _).trans (perm.trans (List.mergeSort_perm others _).symm))
  have same := String.le_antisymm (of_decide_eq_true less) (of_decide_eq_true more)
  exact List.inj_on_of_nodup_map distinct (List.mem_mergeSort.mp isItem)
    (perm.mem_iff.mpr (List.mem_mergeSort.mp isOther)) same

end

namespace OrderedMap

section

variable {α : Type}

theorem sortedByKey_sortedByKey (map : OrderedMap α) :
    sortedByKey (sortedByKey map) = sortedByKey map :=
  mergeSort_mergeSort_name map

theorem sortedByKey_of_perm {map other : OrderedMap α} (perm : map.Perm other)
    (distinct : (keys map).Nodup) : sortedByKey map = sortedByKey other :=
  mergeSort_name_of_perm perm distinct

theorem find?_of_perm {map other : OrderedMap α} (perm : map.Perm other)
    (distinct : (keys map).Nodup) (name : String) : find? map name = find? other name := by
  rw [← find?_sortedByKey distinct, sortedByKey_of_perm perm distinct,
    find?_sortedByKey ((perm.map Prod.fst).nodup_iff.mp distinct)]

end

end OrderedMap

/-! ## Contents of parts -/

section

variable (forms : String → Option InputForm)

theorem InputValue.content_content (value : InputValue) :
    (value.content forms).content forms = value.content forms := by
  simp only [content, Option.map_map]
  congr 1
  exact Option.map_congr fun default _ => Json.floated_floated forms default value.type

theorem inputContent_mapValues_undescribed (values : OrderedMap InputValue) :
    inputContent forms (OrderedMap.mapValues values InputValue.undescribed) =
      inputContent forms values := by
  rw [inputContent, OrderedMap.sortedByKey_mapValues, OrderedMap.mapValues_mapValues]
  rfl

theorem inputContent_inputContent (values : OrderedMap InputValue) :
    inputContent forms (inputContent forms values) = inputContent forms values := by
  rw [inputContent, inputContent, OrderedMap.sortedByKey_mapValues,
    OrderedMap.sortedByKey_sortedByKey, OrderedMap.mapValues_mapValues]
  simp only [InputValue.content_content]

theorem OutputField.content_undescribed (field : OutputField) :
    field.undescribed.content forms = field.content forms := by
  simp only [content, undescribed, inputContent_mapValues_undescribed]

theorem OutputField.content_content (field : OutputField) :
    (field.content forms).content forms = field.content forms := by
  simp only [content, inputContent_inputContent]

theorem outputContent_mapValues_undescribed (fields : OrderedMap OutputField) :
    outputContent forms (OrderedMap.mapValues fields OutputField.undescribed) =
      outputContent forms fields := by
  rw [outputContent, OrderedMap.sortedByKey_mapValues, OrderedMap.mapValues_mapValues]
  simp only [OutputField.content_undescribed]
  rfl

theorem outputContent_outputContent (fields : OrderedMap OutputField) :
    outputContent forms (outputContent forms fields) = outputContent forms fields := by
  rw [outputContent, outputContent, OrderedMap.sortedByKey_mapValues,
    OrderedMap.sortedByKey_sortedByKey, OrderedMap.mapValues_mapValues]
  simp only [OutputField.content_content]

theorem inOrder_inOrder (names : List String) : inOrder (inOrder names) = inOrder names :=
  @mergeSort_mergeSort_name _ id names

/-- Descriptions of enum values come with them. -/
theorem mergeSort_map_undescribed (values : List EnumValue) :
    (values.map EnumValue.undescribed).mergeSort
        (fun left right => decide (left.name ≤ right.name)) =
      (values.mergeSort fun left right => decide (left.name ≤ right.name)).map
        EnumValue.undescribed := by
  rw [List.map_mergeSort]
  exact fun _ _ _ _ => rfl

theorem TypeForm.content_undescribed (form : TypeForm) :
    form.undescribed.content forms = form.content forms := by
  cases form with
  | object fields interfaces =>
      simp only [content, undescribed, outputContent_mapValues_undescribed]
  | interface fields interfaces =>
      simp only [content, undescribed, outputContent_mapValues_undescribed]
  | enum values =>
      simp only [content, undescribed, mergeSort_map_undescribed, List.map_map]
      rfl
  | inputObject fields => simp only [content, undescribed, inputContent_mapValues_undescribed]
  | union members => rfl
  | scalar => rfl

theorem TypeForm.content_content (form : TypeForm) :
    (form.content forms).content forms = form.content forms := by
  cases form with
  | object fields interfaces => simp only [content, outputContent_outputContent, inOrder_inOrder]
  | interface fields interfaces => simp only [content, outputContent_outputContent, inOrder_inOrder]
  | enum values =>
      simp only [content, mergeSort_map_undescribed, mergeSort_mergeSort_name, List.map_map]
      rfl
  | inputObject fields => simp only [content, inputContent_inputContent]
  | union members => simp only [content, inOrder_inOrder]
  | scalar => rfl

theorem SchemaType.content_undescribed (type : SchemaType) :
    type.undescribed.content forms = type.content forms := by
  simp only [content, undescribed, TypeForm.content_undescribed]

theorem SchemaType.content_content (type : SchemaType) :
    (type.content forms).content forms = type.content forms := by
  simp only [content, TypeForm.content_content]

theorem SchemaDirective.content_undescribed (directive : SchemaDirective) :
    directive.undescribed.content forms = directive.content forms := by
  simp only [content, undescribed, inputContent_mapValues_undescribed]

theorem SchemaDirective.content_content (directive : SchemaDirective) :
    (directive.content forms).content forms = directive.content forms := by
  simp only [content, inputContent_inputContent]

end

/-! ## Forms of input types -/

theorem TypeForm.inputForm?_undescribed (form : TypeForm) :
    form.undescribed.inputForm? = form.inputForm? := by
  cases form with
  | enum values =>
      simp only [undescribed, inputForm?, List.any_map]
      rfl
  | inputObject fields =>
      simp only [undescribed, inputForm?, OrderedMap.find?_mapValues, Option.map_map]
      rfl
  | _ => rfl

/-- The fields of an input object have different names. -/
def TypeForm.IsKeyed : TypeForm → Prop
  | inputObject fields => (OrderedMap.keys fields).Nodup
  | _ => True

theorem TypeForm.IsKeyed.content {form : TypeForm} (keyed : form.IsKeyed)
    (forms : String → Option InputForm) : (form.content forms).IsKeyed := by
  cases form with
  | inputObject fields =>
      rw [TypeForm.content, IsKeyed, inputContent, OrderedMap.keys_mapValues]
      exact OrderedMap.nodup_keys_sortedByKey keyed
  | _ => trivial

theorem TypeForm.inputForm?_content (forms : String → Option InputForm) {form : TypeForm}
    (keyed : form.IsKeyed) : (form.content forms).inputForm? = form.inputForm? := by
  cases form with
  | enum values =>
      have perm := List.mergeSort_perm values fun left right => decide (left.name ≤ right.name)
      simp only [content, inputForm?, List.any_map, perm.any_eq]
      rfl
  | inputObject fields =>
      simp only [content, inputForm?, inputContent, OrderedMap.find?_mapValues, Option.map_map,
        OrderedMap.find?_sortedByKey keyed]
      rfl
  | _ => rfl

namespace Schema

/-- Types and directives stand under their names, each once. -/
structure IsKeyed (schema : Schema) : Prop where
  types : (OrderedMap.keys schema.types).Nodup
  typesNamed : ∀ entry ∈ schema.types, entry.2.name = entry.1
  forms : ∀ entry ∈ schema.types, entry.2.form.IsKeyed
  directives : (OrderedMap.keys schema.directives).Nodup
  directivesNamed : ∀ entry ∈ schema.directives, entry.2.name = entry.1

variable {schema other : Schema}

theorem IsKeyed.type?_name (keyed : schema.IsKeyed) {type : SchemaType}
    (listed : type ∈ schema.types.values) : schema.type? type.name = some type := by
  rcases List.mem_map.mp listed with ⟨entry, member, rfl⟩
  rw [keyed.typesNamed entry member]
  exact OrderedMap.find?_of_mem keyed.types member

theorem IsKeyed.directive?_name (keyed : schema.IsKeyed) {directive : SchemaDirective}
    (listed : directive ∈ schema.directives.values) :
    schema.directive? directive.name = some directive := by
  rcases List.mem_map.mp listed with ⟨entry, member, rfl⟩
  rw [keyed.directivesNamed entry member]
  exact OrderedMap.find?_of_mem keyed.directives member

theorem nodup_keys_inputObject (keyed : ∀ entry ∈ schema.types, entry.2.form.IsKeyed)
    {name : String} {fields : OrderedMap InputValue}
    (isInput : (schema.type? name).map SchemaType.form = some (.inputObject fields)) :
    (OrderedMap.keys fields).Nodup := by
  obtain ⟨type, found, isForm⟩ := Option.map_eq_some_iff.mp isInput
  have distinct := keyed _ (OrderedMap.mem_of_find? found)
  rw [isForm] at distinct
  exact distinct

theorem type?_undescribed (schema : Schema) (name : String) :
    schema.undescribed.type? name = (schema.type? name).map SchemaType.undescribed :=
  OrderedMap.find?_mapValues _ _ _

theorem type?_content (keyed : schema.IsKeyed) (name : String) :
    schema.content.type? name =
      (schema.type? name).map (SchemaType.content schema.inputForm?) := by
  simp only [type?, content, OrderedMap.find?_mapValues, OrderedMap.find?_sortedByKey keyed.types]

theorem isKeyed_content (keyed : schema.IsKeyed) : schema.content.IsKeyed where
  types := by
    rw [content, OrderedMap.keys_mapValues]
    exact OrderedMap.nodup_keys_sortedByKey keyed.types
  typesNamed entry member := by
    rcases List.mem_map.mp member with ⟨given, known, rfl⟩
    exact keyed.typesNamed given (List.mem_mergeSort.mp known)
  forms entry member := by
    rcases List.mem_map.mp member with ⟨given, known, rfl⟩
    exact (keyed.forms given (List.mem_mergeSort.mp known)).content _
  directives := by
    rw [content, OrderedMap.keys_mapValues]
    exact OrderedMap.nodup_keys_sortedByKey keyed.directives
  directivesNamed entry member := by
    rcases List.mem_map.mp member with ⟨given, known, rfl⟩
    exact keyed.directivesNamed given (List.mem_mergeSort.mp known)

theorem inputForm?_undescribed (schema : Schema) :
    schema.undescribed.inputForm? = schema.inputForm? := by
  funext name
  simp only [inputForm?, type?_undescribed, Option.bind_map]
  congr 1
  funext type
  exact type.form.inputForm?_undescribed

theorem inputForm?_content (keyed : schema.IsKeyed) :
    schema.content.inputForm? = schema.inputForm? := by
  funext name
  rw [inputForm?, type?_content keyed, Option.bind_map, inputForm?]
  cases found : schema.type? name with
  | none => rfl
  | some type =>
      exact TypeForm.inputForm?_content _ (keyed.forms _ (OrderedMap.mem_of_find? found))

theorem isObjectType_undescribed (schema : Schema) (name : String) :
    schema.undescribed.isObjectType name = schema.isObjectType name := by
  rw [isObjectType, type?_undescribed, Option.any_map, isObjectType]
  congr 1
  funext type
  rcases type with ⟨_, _, _ | _ | _ | _ | _ | _⟩ <;> rfl

theorem isObjectType_content (keyed : schema.IsKeyed) (name : String) :
    schema.content.isObjectType name = schema.isObjectType name := by
  rw [isObjectType, type?_content keyed, Option.any_map, isObjectType]
  congr 1
  funext type
  rcases type with ⟨_, _, _ | _ | _ | _ | _ | _⟩ <;> rfl

/-- The same types and directives in another order. -/
structure Rearranges (schema other : Schema) : Prop where
  types : schema.types.Perm other.types
  directives : schema.directives.Perm other.directives

namespace Rearranges

theorem type?_eq (rearranges : schema.Rearranges other) (keyed : schema.IsKeyed) (name : String) :
    schema.type? name = other.type? name :=
  OrderedMap.find?_of_perm rearranges.types keyed.types name

theorem inputForm?_eq (rearranges : schema.Rearranges other) (keyed : schema.IsKeyed) :
    schema.inputForm? = other.inputForm? := by
  funext name
  simp only [inputForm?, rearranges.type?_eq keyed]

theorem content_eq (rearranges : schema.Rearranges other) (keyed : schema.IsKeyed)
    (roots : ∀ kind, schema.rootTypeName? kind = other.rootTypeName? kind) :
    schema.content = other.content := by
  have query : schema.queryType = other.queryType := roots .query
  have mutation : schema.mutationType = other.mutationType := roots .mutation
  have subscription : schema.subscriptionType = other.subscriptionType := roots .subscription
  simp only [content, rearranges.inputForm?_eq keyed, query, mutation, subscription,
    OrderedMap.sortedByKey_of_perm rearranges.types keyed.types,
    OrderedMap.sortedByKey_of_perm rearranges.directives keyed.directives]

end Rearranges

theorem content_undescribed (schema : Schema) : schema.undescribed.content = schema.content := by
  simp only [content, inputForm?_undescribed]
  simp only [undescribed, OrderedMap.sortedByKey_mapValues, OrderedMap.mapValues_mapValues,
    SchemaType.content_undescribed, SchemaDirective.content_undescribed]

theorem content_content (keyed : schema.IsKeyed) : schema.content.content = schema.content := by
  rw [content, inputForm?_content keyed]
  simp only [content, OrderedMap.sortedByKey_mapValues, OrderedMap.sortedByKey_sortedByKey,
    OrderedMap.mapValues_mapValues, SchemaType.content_content, SchemaDirective.content_content]

end Schema

end GraphQL

import GraphQL.OrderedMap
import Mathlib.Data.List.Nodup

/-!
# Lookups in ordered maps

In a map without repeated keys an entry is what is found under its key. Adding entries only under
new keys keeps the first entry of every key, and these are all entries if no key is repeated.
Grouping a list under the keys of its members makes such a map, and the group of a key is the sublist
of the members with this key, in their order.
-/

namespace GraphQL

universe u v w

namespace OrderedMap

variable {α : Type u}

@[simp]
theorem keys_nil : keys ([] : OrderedMap α) = [] := rfl

@[simp]
theorem keys_cons (entry : String × α) (rest : OrderedMap α) :
    keys (entry :: rest) = entry.1 :: keys rest := rfl

theorem mem_of_find? {map : OrderedMap α} {name : String} {value : α}
    (found : find? map name = some value) : (name, value) ∈ map := by
  induction map with
  | nil => simp at found
  | cons entry rest ih =>
      rw [find?_cons] at found
      split at found
      · rename_i same
        simp only [Option.some.injEq] at found
        simp [← same, ← found]
      · exact List.mem_cons_of_mem _ (ih found)

theorem find?_eq_none_iff {map : OrderedMap α} {name : String} :
    find? map name = none ↔ name ∉ keys map := by
  induction map with
  | nil => simp
  | cons entry rest ih =>
      rw [find?_cons, keys_cons, List.mem_cons]
      split
      · rename_i same
        simp [same]
      · rename_i distinct
        simp [ih, Ne.symm distinct]

theorem find?_of_mem {map : OrderedMap α} (distinct : (keys map).Nodup) {name : String} {value : α}
    (member : (name, value) ∈ map) : find? map name = some value := by
  induction map with
  | nil => simp at member
  | cons entry rest ih =>
      rw [keys_cons, List.nodup_cons] at distinct
      rw [find?_cons]
      rcases List.mem_cons.mp member with rfl | member
      · simp
      · have inRest : name ∈ keys rest := List.mem_map_of_mem member
        have other : entry.1 ≠ name := fun same => distinct.1 (same ▸ inRest)
        simp [other, ih distinct.2 member]

/-- One name has one value. -/
theorem eq_of_mem_of_mem {map : OrderedMap α} (distinct : (keys map).Nodup) {name : String}
    {value other : α} (first : (name, value) ∈ map) (second : (name, other) ∈ map) :
    value = other :=
  Option.some.inj ((find?_of_mem distinct first).symm.trans (find?_of_mem distinct second))

/-- Maps with the same lookups have the same entries. -/
theorem perm_of_find?_eq {map other : OrderedMap α} (distinct : (keys map).Nodup)
    (otherDistinct : (keys other).Nodup) (same : ∀ name, find? map name = find? other name) :
    map.Perm other := by
  refine (List.perm_ext_iff_of_nodup distinct.of_map otherDistinct.of_map).mpr fun entry => ?_
  constructor
  · exact fun member => mem_of_find? ((same entry.1).symm.trans (find?_of_mem distinct member))
  · exact fun member => mem_of_find? ((same entry.1).trans (find?_of_mem otherDistinct member))

theorem find?_alter_self (map : OrderedMap α) (name : String) (change : Option α → α) :
    find? (alter map name change) name = some (change (find? map name)) := by
  induction map with
  | nil => simp [alter, find?]
  | cons entry rest ih =>
      simp only [alter]
      split
      · rename_i same
        simp [find?, same]
      · rename_i distinct
        simp [find?, distinct, ih]

theorem find?_alter_of_ne (map : OrderedMap α) {name other : String} (change : Option α → α)
    (distinct : name ≠ other) : find? (alter map name change) other = find? map other := by
  induction map with
  | nil => simp [alter, find?, distinct]
  | cons entry rest ih =>
      simp only [alter]
      split
      · rename_i same
        subst same
        simp [find?, distinct]
      · simp [find?, ih]

theorem keys_alter (map : OrderedMap α) (name : String) (change : Option α → α) :
    keys (alter map name change) = if name ∈ keys map then keys map else keys map ++ [name] := by
  induction map with
  | nil => simp [alter]
  | cons entry rest ih =>
      simp only [alter]
      split
      · rename_i same
        simp [same]
      · rename_i distinct
        simp only [keys_cons, List.mem_cons, ih]
        by_cases present : name ∈ keys rest
        · simp [present]
        · simp [present, Ne.symm distinct]

private theorem nodup_append_if_new {names : List String} (distinct : names.Nodup)
    (name : String) : (if name ∈ names then names else names ++ [name]).Nodup := by
  split
  · exact distinct
  · rename_i absent
    simp only [List.nodup_append, distinct, List.nodup_singleton, List.mem_singleton, true_and]
    intro key keyMem other otherIs same
    exact absent (otherIs ▸ same ▸ keyMem)

theorem nodup_keys_alter {map : OrderedMap α} (distinct : (keys map).Nodup) (name : String)
    (change : Option α → α) : (keys (alter map name change)).Nodup := by
  rw [keys_alter]
  exact nodup_append_if_new distinct name

theorem nodup_keys_insert {map : OrderedMap α} (distinct : (keys map).Nodup) (name : String)
    (value : α) : (keys (insert map name value)).Nodup := by
  rw [keys_insert]
  exact nodup_append_if_new distinct name

theorem insert_append_of_not_mem {front : OrderedMap α} {name : String} (isNew : name ∉ keys front)
    (rest : OrderedMap α) (value : α) :
    insert (front ++ rest) name value = front ++ insert rest name value := by
  induction front with
  | nil => rfl
  | cons entry front ih =>
      rw [keys_cons, List.mem_cons, not_or] at isNew
      rw [List.cons_append, insert, if_neg fun same => isNew.1 same.symm, ih isNew.2,
        List.cons_append]

theorem insert_of_not_mem {map : OrderedMap α} {name : String} (isNew : name ∉ keys map)
    (value : α) : insert map name value = map ++ [(name, value)] := by
  have last := insert_append_of_not_mem isNew [] value
  rwa [List.append_nil] at last

/-- The last value can be replaced. -/
theorem insert_concat {map : OrderedMap α} {name : String} (isNew : name ∉ keys map)
    (old value : α) : insert (map ++ [(name, old)]) name value = map ++ [(name, value)] := by
  rw [insert_append_of_not_mem isNew, insert, if_pos rfl]

theorem mem_insert {map : OrderedMap α} {name : String} {value : α} {entry : String × α}
    (member : entry ∈ insert map name value) : entry = (name, value) ∨ entry ∈ map := by
  induction map with
  | nil =>
      rw [insert, List.mem_singleton] at member
      exact .inl member
  | cons first rest ih =>
      simp only [insert] at member
      split at member
      · rename_i same
        rcases List.mem_cons.mp member with rfl | member
        · exact .inl (by rw [same])
        · exact .inr (List.mem_cons_of_mem _ member)
      · rcases List.mem_cons.mp member with rfl | member
        · exact .inr List.mem_cons_self
        · exact (ih member).imp_right (List.mem_cons_of_mem _)

/-- After an insertion a name has the new value or the one that it had. -/
theorem find?_insert (map : OrderedMap α) (name other : String) (value : α) :
    find? (insert map name value) other = if name = other then some value else find? map other := by
  by_cases same : name = other
  · rw [if_pos same, ← same, find?_insert_self]
  · rw [if_neg same, find?_insert_of_ne map value same]

/-- After an insertion an entry is the new one, or an old one under another name. -/
theorem eq_or_mem_of_mem_insert {map : OrderedMap α} (distinct : (keys map).Nodup)
    {name other : String} {value entry : α} (member : (other, entry) ∈ insert map name value) :
    other = name ∧ entry = value ∨ other ≠ name ∧ (other, entry) ∈ map := by
  have found := find?_of_mem (nodup_keys_insert distinct name value) member
  rw [find?_insert] at found
  split at found
  · rename_i same
    exact .inl ⟨same.symm, (Option.some.inj found).symm⟩
  · rename_i different
    exact .inr ⟨Ne.symm different, mem_of_find? found⟩

theorem isSome_find?_insert {map : OrderedMap α} {name other : String} {value : α}
    (known : (find? map other).isSome) : (find? (insert map name value) other).isSome := by
  rw [find?_insert]
  split
  · rfl
  · exact known

theorem mem_of_mem_ofPairs {pairs : List (String × α)} {entry : String × α}
    (member : entry ∈ ofPairs pairs) : entry ∈ pairs := by
  have general : ∀ (map : OrderedMap α),
      entry ∈ pairs.foldl (fun map pair => insert map pair.1 pair.2) map →
        entry ∈ map ∨ entry ∈ pairs := by
    clear member
    induction pairs with
    | nil => exact fun map => .inl
    | cons pair rest ih =>
        intro map member
        rcases ih _ member with member | member
        · rcases mem_insert member with rfl | member
          · exact .inr List.mem_cons_self
          · exact .inl member
        · exact .inr (List.mem_cons_of_mem _ member)
  rcases general _ member with member | member
  · cases member
  · exact member

theorem mem_insertIfNew {map : OrderedMap α} {name : String} {value : α} {entry : String × α}
    (member : entry ∈ insertIfNew map name value) : entry = (name, value) ∨ entry ∈ map := by
  unfold insertIfNew at member
  split at member
  · exact .inr member
  · rcases List.mem_append.mp member with member | member
    · exact .inr member
    · exact .inl (List.mem_singleton.mp member)

theorem nodup_keys_ofPairs (pairs : List (String × α)) : (keys (ofPairs pairs)).Nodup := by
  have general : ∀ map : OrderedMap α, (keys map).Nodup →
      (keys (pairs.foldl (fun map pair => insert map pair.1 pair.2) map)).Nodup := by
    induction pairs with
    | nil => exact fun map distinct => distinct
    | cons pair rest ih => exact fun map distinct => ih _ (nodup_keys_insert distinct _ _)
  exact general [] List.nodup_nil

/-- New names come last, in their order. -/
theorem foldl_insert_of_nodup {map pairs : OrderedMap α} (distinct : (keys (map ++ pairs)).Nodup) :
    pairs.foldl (fun map pair => insert map pair.1 pair.2) map = map ++ pairs := by
  induction pairs generalizing map with
  | nil => exact (List.append_nil map).symm
  | cons pair rest ih =>
      have isNew : pair.1 ∉ keys map := by
        intro known
        rw [keys, List.map_append, List.nodup_append] at distinct
        exact distinct.2.2 _ known _ List.mem_cons_self rfl
      rw [List.foldl_cons, insert_of_not_mem isNew, ih]
      · simp
      · simpa using distinct

/-- Pairs with different names are the map. -/
theorem ofPairs_of_nodup {pairs : List (String × α)} (distinct : (keys pairs).Nodup) :
    ofPairs pairs = pairs :=
  foldl_insert_of_nodup distinct

theorem mem_keys_insert_iff {map : OrderedMap α} {name other : String} {value : α} :
    other ∈ keys (insert map name value) ↔ other ∈ keys map ∨ other = name := by
  rw [keys_insert]
  by_cases known : name ∈ keys map
  · rw [if_pos known]
    constructor
    · exact .inl
    · rintro (member | rfl)
      · exact member
      · exact known
  · rw [if_neg known, List.mem_append, List.mem_singleton]

/-- Every name that is given is a key. -/
theorem mem_keys_ofPairs_iff {pairs : List (String × α)} {name : String} :
    name ∈ keys (ofPairs pairs) ↔ name ∈ keys pairs := by
  have general : ∀ map : OrderedMap α,
      name ∈ keys (pairs.foldl (fun map pair => insert map pair.1 pair.2) map) ↔
        name ∈ keys map ∨ name ∈ keys pairs := by
    induction pairs with
    | nil => simp
    | cons pair rest ih =>
        intro map
        rw [List.foldl_cons, ih, mem_keys_insert_iff, keys_cons, List.mem_cons, or_assoc]
  exact (general []).trans (by simp)

theorem find?_append_of_some {map : OrderedMap α} {name : String} {value : α}
    (found : map.find? name = some value) (other : OrderedMap α) :
    find? (map ++ other) name = some value := by
  induction map with
  | nil => cases found
  | cons entry rest ih =>
      rcases entry with ⟨key, first⟩
      rw [find?_cons] at found
      rw [List.cons_append, find?_cons]
      by_cases same : key = name
      · rwa [if_pos same] at found ⊢
      · rw [if_neg same] at found ⊢
        exact ih found

theorem find?_concat {map : OrderedMap α} {name : String} (isNew : name ∉ keys map) (value : α) :
    find? (map ++ [(name, value)]) name = some value := by
  rw [← insert_of_not_mem isNew, find?_insert_self]

theorem keys_append (map other : OrderedMap α) : keys (map ++ other) = keys map ++ keys other :=
  List.map_append

/-! ## Changed and sorted maps -/

section Changed

variable {β : Type v} (change : α → β)

theorem keys_mapValues (map : OrderedMap α) : keys (mapValues map change) = keys map := by
  simp [keys, mapValues]

theorem values_mapValues (map : OrderedMap α) :
    values (mapValues map change) = (values map).map change := by
  simp [values, mapValues]

theorem mapValues_append (map other : OrderedMap α) :
    mapValues (map ++ other) change = mapValues map change ++ mapValues other change :=
  List.map_append

theorem mapValues_mapValues {γ : Type w} (next : β → γ) (map : OrderedMap α) :
    mapValues (mapValues map change) next = mapValues map fun value => next (change value) := by
  simp [mapValues]

theorem find?_mapValues (map : OrderedMap α) (name : String) :
    find? (mapValues map change) name = (find? map name).map change := by
  induction map with
  | nil => rfl
  | cons entry rest ih =>
      rcases entry with ⟨key, value⟩
      simp only [mapValues, List.map_cons, find?_cons] at ih ⊢
      rw [ih]
      split <;> rfl

theorem mapValues_insert (map : OrderedMap α) (name : String) (value : α) :
    mapValues (insert map name value) change = insert (mapValues map change) name (change value) := by
  induction map with
  | nil => rfl
  | cons entry rest ih =>
      simp only [mapValues, insert, List.map_cons] at ih ⊢
      split
      · rfl
      · rw [List.map_cons, ih]

/-- Values can be changed before or after they are collected in a map. -/
theorem ofPairs_map (pairs : List (String × α)) :
    ofPairs (pairs.map fun pair => (pair.1, change pair.2)) = mapValues (ofPairs pairs) change := by
  have general : ∀ map : OrderedMap α,
      (pairs.map fun pair => (pair.1, change pair.2)).foldl
          (fun map pair => insert map pair.1 pair.2) (mapValues map change) =
        mapValues (pairs.foldl (fun map pair => insert map pair.1 pair.2) map) change := by
    induction pairs with
    | nil => exact fun map => rfl
    | cons pair rest ih =>
        intro map
        rw [List.map_cons, List.foldl_cons, List.foldl_cons, ← ih, mapValues_insert]
  exact general []

theorem sortedByKey_mapValues (map : OrderedMap α) :
    sortedByKey (mapValues map change) = mapValues (sortedByKey map) change := by
  unfold sortedByKey mapValues
  rw [List.map_mergeSort]
  exact fun _ _ _ _ => rfl

theorem sortedByKey_perm (map : OrderedMap α) : (sortedByKey map).Perm map :=
  List.mergeSort_perm map _

theorem keys_sortedByKey_perm (map : OrderedMap α) : (keys (sortedByKey map)).Perm (keys map) :=
  (sortedByKey_perm map).map Prod.fst

theorem values_sortedByKey_perm (map : OrderedMap α) :
    (values (sortedByKey map)).Perm (values map) :=
  (sortedByKey_perm map).map Prod.snd

theorem nodup_keys_sortedByKey {map : OrderedMap α} (distinct : (keys map).Nodup) :
    (keys (sortedByKey map)).Nodup :=
  (keys_sortedByKey_perm map).nodup_iff.mpr distinct

/-- Sorting a map changes no lookup. -/
theorem find?_sortedByKey {map : OrderedMap α} (distinct : (keys map).Nodup) (name : String) :
    find? (sortedByKey map) name = find? map name := by
  have sorted := nodup_keys_sortedByKey distinct
  cases found : find? map name with
  | some value => exact find?_of_mem sorted (List.mem_mergeSort.mpr (mem_of_find? found))
  | none =>
      rw [find?_eq_none_iff] at found ⊢
      exact fun member => found ((keys_sortedByKey_perm map).mem_iff.mp member)

end Changed

/-! ## First entries -/

section Firsts

/-- The first entry of every name, in the order in which they stand. -/
def firsts : List (String × α) → OrderedMap α
  | [] => []
  | entry :: rest => entry :: (firsts rest).filter fun other => other.1 ≠ entry.1

theorem contains_iff {map : OrderedMap α} {name : String} :
    map.contains name = true ↔ name ∈ keys map := by
  rw [contains, Option.isSome_iff_ne_none, ne_eq, find?_eq_none_iff, not_not]

/-- Adding only new names keeps the first entry of every name. -/
theorem foldl_insertIfNew (map : OrderedMap α) (entries : List (String × α)) :
    entries.foldl (fun map entry => map.insertIfNew entry.1 entry.2) map =
      map ++ (firsts entries).filter fun entry => entry.1 ∉ keys map := by
  induction entries generalizing map with
  | nil => simp [firsts]
  | cons entry rest ih =>
      rw [List.foldl_cons, ih, firsts, List.filter_cons, List.filter_filter]
      by_cases known : entry.1 ∈ keys map
      · have same : map.insertIfNew entry.1 entry.2 = map := if_pos (contains_iff.mpr known)
        have kept : ∀ other : String × α, other.1 ∉ keys map → other.1 ≠ entry.1 :=
          fun other fresh equal => fresh (equal ▸ known)
        simp only [same, known, not_true_eq_false, decide_false, Bool.false_eq_true, if_false]
        congr 1
        apply List.filter_congr
        intro other _
        by_cases fresh : other.1 ∈ keys map
        · simp [fresh]
        · simp [fresh, kept other fresh]
      · have added : map.insertIfNew entry.1 entry.2 = map ++ [entry] :=
          if_neg fun contained => known (contains_iff.mp contained)
        simp only [added, keys_append, known, not_false_eq_true, decide_true, if_true,
          List.append_assoc, List.singleton_append]
        congr 2
        apply List.filter_congr
        intro other _
        by_cases fresh : other.1 ∈ keys map <;> by_cases same : other.1 = entry.1 <;>
          simp [keys_cons, fresh, same]

theorem firsts_sublist (entries : List (String × α)) : (firsts entries).Sublist entries := by
  induction entries with
  | nil => exact List.Sublist.refl _
  | cons entry rest ih => exact (List.filter_sublist.trans ih).cons_cons entry

theorem nodup_keys_firsts (entries : List (String × α)) : (keys (firsts entries)).Nodup := by
  induction entries with
  | nil => exact List.nodup_nil
  | cons entry rest ih =>
      rw [firsts, keys_cons, List.nodup_cons]
      constructor
      · intro member
        rcases List.mem_map.mp member with ⟨other, kept, same⟩
        simp [same] at kept
      · exact ih.sublist (List.filter_sublist.map _)

theorem firsts_mapValues {β : Type v} (entries : OrderedMap α) (change : α → β) :
    firsts (mapValues entries change) = mapValues (firsts entries) change := by
  induction entries with
  | nil => rfl
  | cons entry rest ih =>
      rw [mapValues] at ih
      rw [mapValues, List.map_cons, firsts, ih, firsts, mapValues, mapValues, List.map_cons,
        List.filter_map]
      rfl

/-- All entries are first ones if no name is repeated, and only then. -/
theorem length_firsts_iff {entries : List (String × α)} :
    (firsts entries).length = entries.length ↔ (keys entries).Nodup := by
  constructor
  · intro same
    have equal := (firsts_sublist entries).eq_of_length same
    rw [← equal]
    exact nodup_keys_firsts entries
  · intro distinct
    induction entries with
    | nil => rfl
    | cons entry rest ih =>
        rw [keys_cons, List.nodup_cons] at distinct
        have kept : ∀ other ∈ firsts rest, other.1 ≠ entry.1 := by
          intro other member same
          exact distinct.1 (same ▸ List.mem_map_of_mem ((firsts_sublist rest).subset member))
        rw [firsts, List.filter_eq_self.mpr (by simpa using kept), List.length_cons,
          ih distinct.2, List.length_cons]

theorem find?_filter_ne {map : OrderedMap α} {name other : String} (distinct : other ≠ name) :
    find? (map.filter fun entry => entry.1 ≠ other) name = find? map name := by
  induction map with
  | nil => rfl
  | cons entry rest ih =>
      rw [List.filter_cons]
      by_cases same : entry.1 = other
      · have differs : entry.1 ≠ name := same ▸ distinct
        simp only [same, ne_eq, not_true_eq_false, decide_false, Bool.false_eq_true, if_false]
        rw [find?_cons, if_neg differs]
        exact ih
      · simp only [ne_eq, same, not_false_eq_true, decide_true, if_true]
        rw [find?_cons, find?_cons]
        exact if_congr Iff.rfl rfl ih

theorem find?_firsts (entries : List (String × α)) (name : String) :
    find? (firsts entries) name = find? entries name := by
  induction entries with
  | nil => rfl
  | cons entry rest ih =>
      rw [firsts, find?_cons, find?_cons]
      by_cases same : entry.1 = name
      · simp [same]
      · rw [if_neg same, if_neg same, find?_filter_ne same, ih]

theorem mem_keys_firsts_iff {entries : List (String × α)} {name : String} :
    name ∈ keys (firsts entries) ↔ name ∈ keys entries := by
  rw [← not_iff_not, ← find?_eq_none_iff, ← find?_eq_none_iff, find?_firsts]

/-- There is only one first entry if all entries have its name. -/
theorem firsts_eq_singleton_iff {entries : List (String × α)} {entry : String × α} :
    firsts entries = [entry] ↔
      ∃ rest, entries = entry :: rest ∧ ∀ other ∈ rest, other.1 = entry.1 := by
  cases entries with
  | nil => simp [firsts]
  | cons first rest =>
      have emptied : ((firsts rest).filter fun other => other.1 ≠ first.1) = [] ↔
          ∀ other ∈ rest, other.1 = first.1 := calc
        _ ↔ ∀ name ∈ keys (firsts rest), name = first.1 := by simp [List.filter_eq_nil_iff, keys]
        _ ↔ ∀ name ∈ keys rest, name = first.1 := by simp only [mem_keys_firsts_iff]
        _ ↔ ∀ other ∈ rest, other.1 = first.1 := by simp [keys]
      rw [firsts, List.cons.injEq, emptied]
      constructor
      · rintro ⟨rfl, all⟩
        exact ⟨rest, rfl, all⟩
      · rintro ⟨others, same, all⟩
        rw [List.cons.injEq] at same
        rcases same with ⟨rfl, rfl⟩
        exact ⟨rfl, all⟩

end Firsts

/-! ## Groups -/

section Grouped

variable (key : α → String)

/-- Adds the members of a list to their groups. -/
def addGrouped (groups : OrderedMap (List α)) (items : List α) : OrderedMap (List α) :=
  items.foldl
    (fun groups item => alter groups (key item) fun group => group.getD [] ++ [item]) groups

/-- The members of a list under their keys. -/
def grouped (items : List α) : OrderedMap (List α) :=
  addGrouped key [] items

@[simp]
theorem addGrouped_nil (groups : OrderedMap (List α)) : addGrouped key groups [] = groups := rfl

theorem addGrouped_cons (groups : OrderedMap (List α)) (item : α) (rest : List α) :
    addGrouped key groups (item :: rest)
      = addGrouped key (alter groups (key item) fun group => group.getD [] ++ [item]) rest := rfl

theorem addGrouped_append (groups : OrderedMap (List α)) (first second : List α) :
    addGrouped key groups (first ++ second) = addGrouped key (addGrouped key groups first) second :=
  List.foldl_append

theorem getD_find?_addGrouped (groups : OrderedMap (List α)) (items : List α) (name : String) :
    ((find? (addGrouped key groups items) name).getD [])
      = (find? groups name).getD [] ++ items.filter (key · = name) := by
  induction items generalizing groups with
  | nil => simp
  | cons item rest ih =>
      rw [addGrouped_cons, ih]
      by_cases same : key item = name
      · subst same
        simp [find?_alter_self]
      · simp [find?_alter_of_ne _ _ same, same]

theorem nodup_keys_addGrouped {groups : OrderedMap (List α)} (distinct : (keys groups).Nodup)
    (items : List α) : (keys (addGrouped key groups items)).Nodup := by
  induction items generalizing groups with
  | nil => exact distinct
  | cons item rest ih => exact ih (nodup_keys_alter distinct _ _)

theorem nodup_keys_grouped (items : List α) : (keys (grouped key items)).Nodup :=
  nodup_keys_addGrouped key (by simp) items

theorem ne_nil_of_find?_addGrouped {groups : OrderedMap (List α)} (items : List α)
    (filled : ∀ name group, find? groups name = some group → group ≠ []) {name : String}
    {group : List α} (found : find? (addGrouped key groups items) name = some group) :
    group ≠ [] := by
  induction items generalizing groups with
  | nil => exact filled name group found
  | cons item rest ih =>
      apply ih _ found
      intro other members othersFound
      by_cases same : key item = other
      · subst same
        rw [find?_alter_self] at othersFound
        simp only [Option.some.injEq] at othersFound
        simp [← othersFound]
      · rw [find?_alter_of_ne _ _ same] at othersFound
        exact filled other members othersFound

/-- The group of a key is what the list holds under this key, and is never empty. -/
theorem find?_grouped_iff {items : List α} {name : String} {group : List α} :
    find? (grouped key items) name = some group ↔
      group = items.filter (key · = name) ∧ group ≠ [] := by
  have content := getD_find?_addGrouped key [] items name
  simp only [find?_nil, Option.getD_none, List.nil_append] at content
  constructor
  · intro found
    have filled := ne_nil_of_find?_addGrouped key items (by simp) found
    rw [grouped] at found
    rw [found] at content
    exact ⟨content, filled⟩
  · rintro ⟨rfl, filled⟩
    rw [grouped]
    cases found : find? (addGrouped key [] items) name with
    | none =>
        rw [found] at content
        exact absurd content.symm filled
    | some group =>
        rw [found] at content
        exact congrArg some content

theorem mem_grouped_iff {items : List α} {name : String} {group : List α} :
    (name, group) ∈ grouped key items ↔ group = items.filter (key · = name) ∧ group ≠ [] := by
  rw [← find?_grouped_iff]
  exact ⟨find?_of_mem (nodup_keys_grouped key items), mem_of_find?⟩

theorem exists_find?_grouped {items : List α} {item : α} (member : item ∈ items) :
    ∃ group, find? (grouped key items) (key item) = some group ∧ item ∈ group := by
  have inGroup : item ∈ items.filter (key · = key item) := by simp [member]
  exact ⟨_, (find?_grouped_iff key).mpr ⟨rfl, List.ne_nil_of_mem inGroup⟩, inGroup⟩

end Grouped

end OrderedMap

end GraphQL

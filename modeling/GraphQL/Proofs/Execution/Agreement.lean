import GraphQL.Proofs.Execution.Positions
import GraphQL.Proofs.Execution.Sight

/-!
# Trees that agree with a report

A response tree in the making agrees with a report about all places if everything in it that is not
open is as the report has it. Putting at an open place what agrees with the report keeps the
agreement, also when it is a failure that goes up, and a tree without open places shows the data of
the report.

As long as no error is recorded a tree agrees cleanly: its nulls are then no failures, and the
report has no errors but those below open places.
-/

namespace GraphQL

/-- A tree at a path agrees with a report, where the places that satisfy a predicate are open. -/
inductive Agrees (report : ResponsePath → Evaluation Json) (clean : Prop)
    (awaited : ResponsePath → Prop) : Bool → ResponseTree → ResponsePath → Prop where
  | waiting {nullable : Bool} {path : ResponsePath} (awaits : awaited path) :
      Agrees report clean awaited nullable .waiting path
  | null {nullable : Bool} {path : ResponsePath}
      (isNull : Evaluation.filled nullable (report path).result = some .null)
      (silent : clean → (report path).errors = []) :
      Agrees report clean awaited nullable .null path
  | leaf {nullable : Bool} {path : ResponsePath} {value : Json}
      (same : report path = { result := some value, errors := [] }) :
      Agrees report clean awaited nullable (.leaf value) path
  | list {nullable inner : Bool} {path : ResponsePath} {items : List ResponseTree}
      (same : report path = (Evaluation.itemsAt report inner path 0 items.length).map .array)
      (each : ∀ position item, items[position]? = some item →
        Agrees report clean awaited inner item (path ++ [.index position])) :
      Agrees report clean awaited nullable (.list inner items) path
  | object {nullable : Bool} {path : ResponsePath} {fields : List (String × Bool × ResponseTree)}
      (distinct : (OrderedMap.keys fields).Nodup)
      (same : report path = (Evaluation.fieldsAt report path
        (fields.map fun field => (field.1, field.2.1))).map .object)
      (each : ∀ key inner value, (key, inner, value) ∈ fields →
        Agrees report clean awaited inner value (path ++ [.field key])) :
      Agrees report clean awaited nullable (.object fields) path

namespace Agrees

variable {report : ResponsePath → Evaluation Json} {clean : Prop} {awaited : ResponsePath → Prop}
  {nullable : Bool} {tree : ResponseTree} {path : ResponsePath}

/-- Other places can be open, and the agreement less clean. -/
theorem mono (agrees : Agrees report clean awaited nullable tree path) {otherClean : Prop}
    {others : ResponsePath → Prop} (less : otherClean → clean)
    (opens : ∀ rest, awaited (path ++ rest) → others (path ++ rest)) :
    Agrees report otherClean others nullable tree path := by
  induction agrees with
  | @waiting nullable path awaits =>
      have still := opens []
      rw [List.append_nil] at still
      exact .waiting (still awaits)
  | null isNull silent => exact .null isNull fun isClean => silent (less isClean)
  | leaf same => exact .leaf same
  | @list nullable inner path items same each ih =>
      refine .list same ?_
      intro position item found
      apply ih position item found
      intro rest awaits
      rw [List.append_assoc] at awaits ⊢
      exact opens _ awaits
  | @object nullable path fields distinct same each ih =>
      refine .object distinct same ?_
      intro key inner value member
      apply ih key inner value member
      intro rest awaits
      rw [List.append_assoc] at awaits ⊢
      exact opens _ awaits

/-- Only what the report has at and below the path matters. -/
theorem congr (agrees : Agrees report clean awaited nullable tree path)
    {other : ResponsePath → Evaluation Json}
    (same : ∀ rest, report (path ++ rest) = other (path ++ rest)) :
    Agrees other clean awaited nullable tree path := by
  induction agrees with
  | waiting awaits => exact .waiting awaits
  | @null nullable path isNull silent =>
      have here := same []
      rw [List.append_nil] at here
      rw [here] at isNull silent
      exact .null isNull silent
  | @leaf nullable path value isLeaf =>
      have here := same []
      rw [List.append_nil, isLeaf] at here
      exact .leaf here.symm
  | @list nullable inner path items isList each ih =>
      have here := same []
      rw [List.append_nil, isList, Evaluation.itemsAt_congr fun position => same _] at here
      refine .list here.symm ?_
      intro position item found
      apply ih position item found
      intro rest
      rw [List.append_assoc]
      exact same _
  | @object nullable path fields distinct isObject each ih =>
      have here := same []
      rw [List.append_nil, isObject, Evaluation.fieldsAt_congr fun key => same _] at here
      refine .object distinct here.symm ?_
      intro key inner value member
      apply ih key inner value member
      intro rest
      rw [List.append_assoc]
      exact same _

/-- An open place is live. -/
theorem live (agrees : Agrees report clean awaited nullable tree path) :
    Agrees report clean
      (fun place => awaited place ∧ ∃ rest, place = path ++ rest ∧ tree.isLive rest = true)
      nullable tree path := by
  induction agrees with
  | @waiting nullable path awaits =>
      exact .waiting ⟨awaits, [], by rw [List.append_nil], rfl⟩
  | null isNull silent => exact .null isNull silent
  | leaf same => exact .leaf same
  | @list nullable inner path items same each ih =>
      refine .list same ?_
      intro position item found
      refine (ih position item found).mono id ?_
      rintro rest ⟨awaits, inside, place, isLive⟩
      refine ⟨awaits, .index position :: inside, by rw [place]; simp, ?_⟩
      simpa only [ResponseTree.isLive, ResponseTree.at?, found] using isLive
  | @object nullable path fields distinct same each ih =>
      refine .object distinct same ?_
      intro key inner value member
      refine (ih key inner value member).mono id ?_
      rintro rest ⟨awaits, inside, place, isLive⟩
      refine ⟨awaits, .field key :: inside, by rw [place]; simp, ?_⟩
      simpa only [ResponseTree.isLive, ResponseTree.at?, OrderedMap.find?_of_mem distinct member]
        using isLive

/-! ## Data -/

theorem itemsToJson_eq (items : List ResponseTree) :
    ResponseTree.itemsToJson items = items.map ResponseTree.toJson := by
  induction items with
  | nil => rfl
  | cons item rest ih => rw [ResponseTree.itemsToJson, ih, List.map_cons]

theorem fieldsToJson_eq (fields : List (String × Bool × ResponseTree)) :
    ResponseTree.fieldsToJson fields =
      fields.map fun field => (field.1, ResponseTree.toJson field.2.2) := by
  induction fields with
  | nil => rfl
  | cons field rest ih =>
      rcases field with ⟨key, inner, value⟩
      rw [ResponseTree.fieldsToJson, ih, List.map_cons]

/-- A tree without open places shows what the report has, and if it agrees cleanly the report has no
errors. -/
theorem toJson_eq (agrees : Agrees report clean awaited nullable tree path)
    (closed : ∀ rest, ¬awaited (path ++ rest)) :
    Evaluation.filled nullable (report path).result = some tree.toJson ∧
      (clean → (report path).errors = []) := by
  induction agrees with
  | @waiting nullable path awaits =>
      have isClosed := closed []
      rw [List.append_nil] at isClosed
      exact absurd awaits isClosed
  | null isNull silent => exact ⟨isNull, silent⟩
  | leaf same =>
      rw [same]
      exact ⟨rfl, fun _ => rfl⟩
  | @list nullable inner path items same each ih =>
      have inside : ∀ position item, items[position]? = some item →
          Evaluation.filled inner (report (path ++ [.index position])).result = some item.toJson ∧
            (clean → (report (path ++ [.index position])).errors = []) := by
        intro position item found
        apply ih position item found
        intro rest awaits
        rw [List.append_assoc] at awaits
        exact closed _ awaits
      have values : (Evaluation.itemsAt report inner path 0
          (items.map ResponseTree.toJson).length).result = some (items.map ResponseTree.toJson) := by
        apply Evaluation.itemsAt_result
        intro position value found
        rw [List.getElem?_map, Option.map_eq_some_iff] at found
        rcases found with ⟨item, found, rfl⟩
        rw [Nat.zero_add]
        exact (inside position item found).1
      rw [List.length_map] at values
      constructor
      · rw [same, Evaluation.map, values, ResponseTree.toJson, itemsToJson_eq]
        rfl
      · intro isClean
        rw [same, Evaluation.map, List.eq_nil_iff_forall_not_mem]
        intro error member
        rcases Evaluation.mem_itemsAt_errors.mp member with ⟨position, bound, member⟩
        rw [Nat.zero_add] at member
        have silent := (inside position _ (List.getElem?_eq_getElem bound)).2 isClean
        rw [silent] at member
        cases member
  | @object nullable path fields distinct same each ih =>
      have inside : ∀ key inner value, (key, inner, value) ∈ fields →
          Evaluation.filled inner (report (path ++ [.field key])).result = some value.toJson ∧
            (clean → (report (path ++ [.field key])).errors = []) := by
        intro key inner value member
        apply ih key inner value member
        intro rest awaits
        rw [List.append_assoc] at awaits
        exact closed _ awaits
      let shown := fields.map fun field => (field.1, field.2.1, field.2.2.toJson)
      have values : (Evaluation.fieldsAt report path
          (shown.map fun entry => (entry.1, entry.2.1))).result =
            some (shown.map fun entry => (entry.1, entry.2.2)) := by
        apply Evaluation.fieldsAt_result
        intro key inner value member
        rcases List.mem_map.mp member with ⟨⟨name, mark, tree⟩, fieldMem, equal⟩
        cases equal
        exact (inside name mark tree fieldMem).1
      rw [List.map_map, List.map_map] at values
      constructor
      · rw [same, Evaluation.map, ResponseTree.toJson, fieldsToJson_eq]
        exact congrArg (fun result => Evaluation.filled nullable (result.map Json.object)) values
      · intro isClean
        rw [same, Evaluation.map, List.eq_nil_iff_forall_not_mem]
        intro error member
        rcases Evaluation.mem_fieldsAt_errors.mp member with ⟨head, headMem, member⟩
        rcases List.mem_map.mp headMem with ⟨⟨key, inner, tree⟩, fieldMem, rfl⟩
        have silent := (inside key inner tree fieldMem).2 isClean
        rw [silent] at member
        cases member

/-! ## Placing results -/

/-- What was made for a place agrees with a report: a tree that agrees, or a failure that the report
has as well. -/
def Fits (report : ResponsePath → Evaluation Json) (clean : Prop) (awaited : ResponsePath → Prop)
    (nullable : Bool) (made : Option ResponseTree) (path : ResponsePath) : Prop :=
  match made with
  | some tree => Agrees report clean awaited nullable tree path
  | none => (report path).result = none ∧ ¬clean

theorem Fits.mono {made : Option ResponseTree}
    (fits : Fits report clean awaited nullable made path) {otherClean : Prop}
    {others : ResponsePath → Prop} {other : ResponsePath → Evaluation Json}
    (same : ∀ rest, report (path ++ rest) = other (path ++ rest)) (less : otherClean → clean)
    (opens : ∀ rest, awaited (path ++ rest) → others (path ++ rest)) :
    Fits other otherClean others nullable made path := by
  cases made with
  | some tree =>
      have agrees : Agrees report clean awaited nullable tree path := fits
      exact (agrees.mono less opens).congr same
  | none =>
      have here := same []
      rw [List.append_nil] at here
      exact ⟨here ▸ fits.1, fun isClean => fits.2 (less isClean)⟩

theorem Fits.filled {made : Option ResponseTree}
    (fits : Fits report clean awaited nullable made path) :
    match ResponseTree.filled nullable made with
    | some tree => Agrees report clean awaited nullable tree path
    | none => nullable = false ∧ (report path).result = none ∧ ¬clean := by
  cases made with
  | some tree => exact fits
  | none =>
      cases nullable with
      | true =>
          refine .null ?_ fun isClean => absurd isClean fits.2
          rw [fits.1]
          rfl
      | false => exact ⟨rfl, fits⟩

theorem heads_insert {fields : List (String × Bool × ResponseTree)} {key : String} {inner : Bool}
    {value : ResponseTree} (found : OrderedMap.find? fields key = some (inner, value))
    (other : ResponseTree) :
    (OrderedMap.insert fields key (inner, other)).map (fun field => (field.1, field.2.1)) =
      fields.map fun field => (field.1, field.2.1) := by
  induction fields with
  | nil => cases found
  | cons first rest ih =>
      rcases first with ⟨name, mark, tree⟩
      rw [OrderedMap.find?_cons] at found
      rw [OrderedMap.insert]
      split at found
      · rename_i same
        cases found
        rw [if_pos same]
        rfl
      · rename_i different
        rw [if_neg different, List.map_cons, List.map_cons, ih found]

theorem ne_of_sibling {path first second : ResponsePath} {left right : PathSegment}
    (different : left ≠ right) : path ++ left :: first ≠ path ++ right :: second := by
  intro same
  exact different (List.cons.inj (List.append_cancel_left same)).1

section Branches

variable {segment : PathSegment} {inner : Bool} {branch : ResponseTree}

/-- A part of a tree that agrees. -/
theorem of_branch? (agrees : Agrees report clean awaited nullable tree path)
    (found : tree.branch? segment = some (inner, branch)) :
    Agrees report clean awaited inner branch (path ++ [segment]) := by
  rcases ResponseTree.cases_of_branch? found with ⟨items, position, rfl, rfl, isItem⟩ |
    ⟨fields, key, rfl, rfl, isField⟩
  · cases agrees with
    | list same each => exact each position branch isItem
  · cases agrees with
    | object distinct same each => exact each key inner branch (OrderedMap.mem_of_find? isField)

/-- If a part fails that cannot be null, the whole fails. -/
theorem result_eq_none (agrees : Agrees report clean awaited nullable tree path)
    (found : tree.branch? segment = some (inner, branch)) (isNonNull : inner = false)
    (fails : (report (path ++ [segment])).result = none) : (report path).result = none := by
  rcases ResponseTree.cases_of_branch? found with ⟨items, position, rfl, rfl, isItem⟩ |
    ⟨fields, key, rfl, rfl, isField⟩
  · cases agrees with
    | list same each =>
        rw [same, Evaluation.map,
          Evaluation.itemsAt_result_eq_none (List.getElem?_eq_some_iff.mp isItem).1]
        · rfl
        · rw [Nat.zero_add, isNonNull, fails]
          rfl
  · cases agrees with
    | object distinct same each =>
        rw [same, Evaluation.map, Evaluation.fieldsAt_result_eq_none
          (List.mem_map_of_mem (f := fun field : String × Bool × ResponseTree =>
            (field.1, field.2.1)) (OrderedMap.mem_of_find? isField))]
        · rfl
        · simp only [isNonNull, fails]
          rfl

/-- A part can be replaced by what agrees in its place. -/
theorem withBranch {otherClean : Prop} {others : ResponsePath → Prop} (less : otherClean → clean)
    (agrees : Agrees report clean awaited nullable tree path)
    (found : tree.branch? segment = some (inner, branch))
    (opens : ∀ other rest, other ≠ segment → awaited (path ++ other :: rest) →
      others (path ++ other :: rest))
    {new : ResponseTree} (isNew : Agrees report otherClean others inner new (path ++ [segment])) :
    Agrees report otherClean others nullable (tree.withBranch segment new) path := by
  have sibling {other : PathSegment} (different : other ≠ segment) {mark : Bool}
      {part : ResponseTree} (before : Agrees report clean awaited mark part (path ++ [other])) :
      Agrees report otherClean others mark part (path ++ [other]) := by
    refine before.mono less fun rest awaits => ?_
    rw [List.append_assoc] at awaits ⊢
    exact opens other rest different awaits
  rcases ResponseTree.cases_of_branch? found with ⟨items, position, rfl, rfl, isItem⟩ |
    ⟨fields, key, rfl, rfl, isField⟩
  · cases agrees with
    | list same each =>
        refine .list (by rw [List.length_set]; exact same) fun other item isOther => ?_
        by_cases here : other = position
        · subst here
          rw [List.getElem?_set_self (List.getElem?_eq_some_iff.mp isItem).1] at isOther
          cases isOther
          exact isNew
        · rw [List.getElem?_set_ne (Ne.symm here)] at isOther
          exact sibling (fun equal => here (PathSegment.index.inj equal)) (each other item isOther)
  · cases agrees with
    | object distinct same each =>
        have isInsert : (ResponseTree.object fields).withBranch (.field key) new =
            .object (OrderedMap.insert fields key (inner, new)) := by
          simp only [ResponseTree.withBranch, isField]
        rw [isInsert]
        refine .object (OrderedMap.nodup_keys_insert distinct key (inner, new))
          (by rw [heads_insert isField]; exact same) ?_
        intro other mark part member
        rcases OrderedMap.eq_or_mem_of_mem_insert distinct member with
          ⟨rfl, equal⟩ | ⟨different, before⟩
        · cases equal
          exact isNew
        · exact sibling (fun equal => different (PathSegment.field.inj equal))
            (each other mark part before)

end Branches

/-- Placing what fits at a live place keeps the agreement. -/
theorem place {otherClean : Prop} {others : ResponsePath → Prop} (less : otherClean → clean)
    {made : Option ResponseTree} {rest : ResponsePath}
    (agrees : Agrees report clean awaited nullable tree path) (isLive : tree.isLive rest = true)
    (opens : ∀ place, awaited place → place ≠ path ++ rest → others place)
    (fits : ∀ inner, Fits report otherClean others inner made (path ++ rest)) :
    Fits report otherClean others nullable (tree.place rest made) path := by
  induction rest generalizing tree path nullable with
  | nil =>
      rw [List.append_nil] at fits
      rw [ResponseTree.place_nil]
      exact fits nullable
  | cons segment rest ih =>
      cases found : tree.branch? segment with
      | none =>
          rw [ResponseTree.isLive_of_no_branch found] at isLive
          cases isLive
      | some entry =>
          rcases entry with ⟨inner, branch⟩
          rw [ResponseTree.isLive_of_branch? found] at isLive
          have below := (ih (agrees.of_branch? found) isLive (by simpa using opens)
            (by simpa using fits)).filled
          rw [ResponseTree.place_of_branch? found]
          cases placed : ResponseTree.filled inner (branch.place rest made) with
          | none =>
              rw [placed] at below
              exact ⟨agrees.result_eq_none found below.1 below.2.1, below.2.2⟩
          | some new =>
              rw [placed] at below
              exact agrees.withBranch less found
                (fun other further different awaits => opens _ awaits (ne_of_sibling different)) below

end Agrees

end GraphQL

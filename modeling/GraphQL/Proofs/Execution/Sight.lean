import GraphQL.Execution.Settling
import GraphQL.Proofs.OrderedMap

/-!
# What stands at a path of a response tree

A path can lead to a part of the tree that is shown or waits, into a null, or nowhere. Putting a
result at a place that waits changes what is seen at and below the place, and may replace what is
around it by a null; it changes nothing else.

The marks that an execution leaves, which are its calls, its errors and its tasks, lie at paths that
show what belongs to them, and no two of one kind lie at the same path.
-/

namespace GraphQL

/-- What a path leads to. -/
inductive Sight where
  /-- A null at the path or above it. -/
  | nulled
  | waiting
  | shown
  | unseen
  deriving DecidableEq

namespace ResponseTree

/-- The part of a tree directly below it, with whether it can be null. -/
def branch? : ResponseTree → PathSegment → Option (Bool × ResponseTree)
  | list nullable items, .index position => items[position]?.map (nullable, ·)
  | object fields, .field key => OrderedMap.find? fields key
  | _, _ => none

/-- Replaces a part of a tree directly below it. -/
def withBranch : ResponseTree → PathSegment → ResponseTree → ResponseTree
  | list nullable items, .index position, branch => list nullable (items.set position branch)
  | object fields, .field key, branch =>
      match OrderedMap.find? fields key with
      | some (nullable, _) => object (OrderedMap.insert fields key (nullable, branch))
      | none => object fields
  | tree, _, _ => tree

/-- What a path leads to in a tree. -/
def sight : ResponseTree → ResponsePath → Sight
  | null, _ => .nulled
  | waiting, [] => .waiting
  | _, [] => .shown
  | tree, segment :: rest =>
      match tree.branch? segment with
      | some (_, branch) => branch.sight rest
      | none => .unseen

/-- What a path leads to in what was made for a place; a failure becomes a null there or above. -/
def sightIn : Option ResponseTree → ResponsePath → Sight
  | some tree, path => tree.sight path
  | none, _ => .nulled

variable {tree : ResponseTree} {segment : PathSegment} {nullable : Bool} {branch : ResponseTree}

theorem ne_null_of_branch? (found : tree.branch? segment = some (nullable, branch)) :
    tree ≠ null := by
  rintro rfl
  cases found

theorem sight_null (path : ResponsePath) : null.sight path = .nulled := by
  cases path <;> rfl

theorem sight_cons (isNot : tree ≠ null) (rest : ResponsePath) :
    tree.sight (segment :: rest) =
      match tree.branch? segment with
      | some (_, branch) => branch.sight rest
      | none => .unseen := by
  cases tree with
  | null => exact absurd rfl isNot
  | _ => rfl

theorem sight_of_branch? (found : tree.branch? segment = some (nullable, branch))
    (rest : ResponsePath) : tree.sight (segment :: rest) = branch.sight rest := by
  rw [sight_cons (ne_null_of_branch? found), found]

theorem sight_nil_of_branch? (found : tree.branch? segment = some (nullable, branch)) :
    tree.sight [] = .shown := by
  cases tree with
  | list nullable items => rfl
  | object fields => rfl
  | _ => cases found

theorem sight_of_no_branch (isNot : tree ≠ null) (found : tree.branch? segment = none)
    (rest : ResponsePath) : tree.sight (segment :: rest) = .unseen := by
  rw [sight_cons isNot, found]

theorem sight_item {items : List ResponseTree} {position : Nat}
    (found : items[position]? = some branch) (rest : ResponsePath) :
    (list nullable items).sight (.index position :: rest) = branch.sight rest :=
  sight_of_branch? (by rw [branch?, found]; rfl) rest

theorem sight_field {fields : List (String × Bool × ResponseTree)} {key : String}
    (distinct : (OrderedMap.keys fields).Nodup) (member : (key, nullable, branch) ∈ fields)
    (rest : ResponsePath) : (object fields).sight (.field key :: rest) = branch.sight rest :=
  have found : (object fields).branch? (.field key) = some (nullable, branch) :=
    OrderedMap.find?_of_mem distinct member
  sight_of_branch? found rest

/-- A part directly below a tree is an item of a list or a field of an object. -/
theorem cases_of_branch? (found : tree.branch? segment = some (nullable, branch)) :
    (∃ items position, tree = list nullable items ∧ segment = .index position ∧
        items[position]? = some branch) ∨
      ∃ fields key, tree = object fields ∧ segment = .field key ∧
        OrderedMap.find? fields key = some (nullable, branch) := by
  cases tree with
  | list inner items =>
      cases segment with
      | field key => cases found
      | index position =>
          rcases Option.map_eq_some_iff.mp found with ⟨item, isItem, same⟩
          cases same
          exact .inl ⟨items, position, rfl, rfl, isItem⟩
  | object fields =>
      cases segment with
      | index position => cases found
      | field key => exact .inr ⟨fields, key, rfl, rfl, found⟩
  | _ => cases found

theorem place_nil (tree : ResponseTree) (made : Option ResponseTree) : tree.place [] made = made := by
  cases tree <;> rfl

theorem place_of_branch? (found : tree.branch? segment = some (nullable, branch))
    (rest : ResponsePath) (made : Option ResponseTree) :
    tree.place (segment :: rest) made =
      (filled nullable (branch.place rest made)).map (tree.withBranch segment) := by
  rcases cases_of_branch? found with ⟨items, position, rfl, rfl, isItem⟩ |
    ⟨fields, key, rfl, rfl, isField⟩
  · simp only [place, isItem]
    rfl
  · have inserts : (object fields).withBranch (.field key) = fun value =>
        object (OrderedMap.insert fields key (nullable, value)) := by
      funext value
      simp only [withBranch, isField]
    simp only [place, isField, inserts]

theorem branch?_withBranch (found : tree.branch? segment = some (nullable, branch))
    (new : ResponseTree) : (tree.withBranch segment new).branch? segment = some (nullable, new) := by
  rcases cases_of_branch? found with ⟨items, position, rfl, rfl, isItem⟩ |
    ⟨fields, key, rfl, rfl, isField⟩
  · have bound := (List.getElem?_eq_some_iff.mp isItem).1
    simp [withBranch, branch?, bound]
  · simp [withBranch, branch?, isField]

theorem branch?_withBranch_of_ne {other : PathSegment} (different : segment ≠ other)
    (new : ResponseTree) : (tree.withBranch segment new).branch? other = tree.branch? other := by
  cases tree with
  | list inner items =>
      cases segment with
      | field key => rfl
      | index position =>
          cases other with
          | field key => rfl
          | index later =>
              have apart : position ≠ later := fun same => different (congrArg _ same)
              simp [withBranch, branch?, apart]
  | object fields =>
      cases segment with
      | index position => rfl
      | field key =>
          simp only [withBranch]
          cases OrderedMap.find? fields key with
          | none => rfl
          | some entry =>
              cases other with
              | index position => rfl
              | field later =>
                  have apart : key ≠ later := fun same => different (congrArg _ same)
                  exact OrderedMap.find?_insert_of_ne _ _ apart
  | _ => rfl

theorem isLive_of_branch? (found : tree.branch? segment = some (nullable, branch))
    (rest : ResponsePath) : tree.isLive (segment :: rest) = branch.isLive rest := by
  rcases cases_of_branch? found with ⟨items, position, rfl, rfl, isItem⟩ |
    ⟨fields, key, rfl, rfl, isField⟩
  · simp only [isLive, at?, isItem]
  · simp only [isLive, at?, isField]

theorem isLive_of_no_branch (found : tree.branch? segment = none) (rest : ResponsePath) :
    tree.isLive (segment :: rest) = false := by
  cases tree with
  | list inner items =>
      cases segment with
      | field key => rfl
      | index position =>
          have isNone : items[position]? = none := Option.map_eq_none_iff.mp found
          simp only [isLive, at?, isNone]
          rfl
  | object fields =>
      cases segment with
      | index position => rfl
      | field key =>
          have isNone : OrderedMap.find? fields key = none := found
          simp only [isLive, at?, isNone]
          rfl
  | _ => rfl

/-- A place is live if it waits or is shown. -/
theorem isLive_iff (tree : ResponseTree) (path : ResponsePath) :
    tree.isLive path = true ↔ tree.sight path = .waiting ∨ tree.sight path = .shown := by
  induction path generalizing tree with
  | nil => cases tree <;> simp [isLive, at?, sight]
  | cons segment rest ih =>
      cases found : tree.branch? segment with
      | some entry =>
          rcases entry with ⟨nullable, branch⟩
          rw [isLive_of_branch? found, sight_of_branch? found, ih]
      | none =>
          rw [isLive_of_no_branch found]
          by_cases isNull : tree = null
          · subst isNull
            simp [sight]
          · rw [sight_of_no_branch isNull found]
            simp

theorem sightIn_filled (nullable : Bool) (made : Option ResponseTree) (path : ResponsePath) :
    sightIn (filled nullable made) path = sightIn made path := by
  cases made with
  | some tree => rfl
  | none =>
      cases nullable with
      | true => exact sight_null path
      | false => rfl

theorem sight_getD (made : Option ResponseTree) (path : ResponsePath) :
    (made.getD .null).sight path = sightIn made path := by
  cases made with
  | some tree => rfl
  | none => exact sight_null path

theorem sightIn_nil_ne_unseen (made : Option ResponseTree) : sightIn made [] ≠ .unseen := by
  cases made with
  | none => simp [sightIn]
  | some tree => cases tree <;> simp [sightIn, sight]

/-! ## Results at places -/

variable {made : Option ResponseTree} {place : ResponsePath}

/-- The way to a place that waits leads through a branch. -/
theorem exists_branch_of_waiting (isWaiting : tree.sight (segment :: place) = .waiting) :
    ∃ nullable branch, tree.branch? segment = some (nullable, branch) ∧
      branch.sight place = .waiting := by
  cases found : tree.branch? segment with
  | none =>
      by_cases isNull : tree = null
      · subst isNull
        cases isWaiting
      · rw [sight_of_no_branch isNull found] at isWaiting
        cases isWaiting
  | some entry =>
      rcases entry with ⟨nullable, branch⟩
      rw [sight_of_branch? found] at isWaiting
      exact ⟨nullable, branch, rfl, isWaiting⟩

/-- The way into a null leads through a branch, if the tree is not the null. -/
theorem exists_branch_of_nulled (isNulled : tree.sight (segment :: place) = .nulled)
    (isNot : tree ≠ null) :
    ∃ nullable branch, tree.branch? segment = some (nullable, branch) ∧
      branch.sight place = .nulled := by
  cases found : tree.branch? segment with
  | none =>
      rw [sight_of_no_branch isNot found] at isNulled
      cases isNulled
  | some entry =>
      rcases entry with ⟨nullable, branch⟩
      rw [sight_of_branch? found] at isNulled
      exact ⟨nullable, branch, rfl, isNulled⟩

/-- There is nothing below a place that waits. -/
theorem sight_append_of_waiting (isWaiting : tree.sight place = .waiting) {rest : ResponsePath}
    (isBelow : rest ≠ []) : tree.sight (place ++ rest) = .unseen := by
  induction place generalizing tree with
  | nil =>
      cases tree with
      | waiting =>
          cases rest with
          | nil => exact absurd rfl isBelow
          | cons segment rest => rfl
      | _ => cases isWaiting
  | cons segment place ih =>
      rcases exists_branch_of_waiting isWaiting with ⟨nullable, branch, found, below⟩
      rw [List.cons_append, sight_of_branch? found]
      exact ih below

/-- What was made for a place is seen at and below it. -/
theorem sightIn_place_append (isWaiting : tree.sight place = .waiting) (rest : ResponsePath) :
    sightIn (tree.place place made) (place ++ rest) = sightIn made rest := by
  induction place generalizing tree with
  | nil => rw [place_nil, List.nil_append]
  | cons segment place ih =>
      rcases exists_branch_of_waiting isWaiting with ⟨nullable, branch, found, waits⟩
      have below := ih waits
      rw [← sightIn_filled nullable] at below
      rw [place_of_branch? found, List.cons_append, ← below]
      cases filled nullable (branch.place place made) with
      | none => rfl
      | some new => exact sight_of_branch? (branch?_withBranch found new) _

/-- Elsewhere everything is as before, if no null has taken its place. -/
theorem sightIn_place (isWaiting : tree.sight place = .waiting) {path : ResponsePath}
    (elsewhere : ¬place <+: path) :
    sightIn (tree.place place made) path = tree.sight path ∨
      sightIn (tree.place place made) path = .nulled := by
  induction place generalizing tree path with
  | nil => exact absurd (List.nil_prefix) elsewhere
  | cons segment place ih =>
      rcases exists_branch_of_waiting isWaiting with ⟨nullable, branch, found, waits⟩
      rw [place_of_branch? found]
      cases placed : filled nullable (branch.place place made) with
      | none => exact .inr rfl
      | some new =>
          have replaced := branch?_withBranch found new
          change (tree.withBranch segment new).sight path = _ ∨
            (tree.withBranch segment new).sight path = _
          cases path with
          | nil => exact .inl (by rw [sight_nil_of_branch? found, sight_nil_of_branch? replaced])
          | cons other path =>
              by_cases same : segment = other
              · subst same
                have below := ih waits fun isPrefix =>
                  elsewhere ((List.prefix_cons_inj segment).mpr isPrefix)
                rw [← sightIn_filled nullable, placed] at below
                rw [sight_of_branch? found, sight_of_branch? replaced]
                exact below
              · rw [sight_cons (ne_null_of_branch? replaced), branch?_withBranch_of_ne same,
                  sight_cons (ne_null_of_branch? found)]
                exact .inl rfl

end ResponseTree

/-! ## Marks -/

/-- What an execution leaves at a path. -/
inductive Mark where
  | call
  | error
  | task

/-- What can be seen where a mark is: errors lie under nulls, and tasks under nulls or where the
tree waits for them. -/
def Mark.Allows : Mark → Sight → Prop
  | call, sight => sight ≠ .unseen
  | error, sight => sight = .nulled
  | task, sight => sight = .nulled ∨ sight = .waiting

theorem Mark.allows_nulled (mark : Mark) : mark.Allows .nulled := by
  cases mark <;> simp [Allows]

theorem Mark.not_allows_unseen (mark : Mark) : ¬mark.Allows .unseen := by
  cases mark <;> simp [Allows]

/-- Marks of one kind at or below a path, for which something was made. -/
structure Scattered (mark : Mark) (base : ResponsePath) (made : Option ResponseTree)
    (paths : List ResponsePath) : Prop where
  distinct : paths.Nodup
  below : ∀ path ∈ paths, ∃ rest, path = base ++ rest ∧ mark.Allows (ResponseTree.sightIn made rest)

/-- Marks of one kind below the siblings below a path. -/
structure ScatteredAmong (mark : Mark) (base : ResponsePath) (segments : List PathSegment)
    (made : Option (List ResponseTree)) (paths : List ResponsePath) : Prop where
  distinct : paths.Nodup
  below : ∀ path ∈ paths, ∃ (index : Nat) (segment : PathSegment) (rest : ResponsePath),
    segments[index]? = some segment ∧ path = base ++ segment :: rest ∧
      ∀ trees, made = some trees →
        ∃ tree, trees[index]? = some tree ∧ mark.Allows (ResponseTree.sight tree rest)

namespace Scattered

variable {mark : Mark} {base : ResponsePath} {made : Option ResponseTree}
  {paths others : List ResponsePath}

theorem nil : Scattered mark base made [] where
  distinct := List.nodup_nil
  below := by
    intro path member
    cases member

theorem isPrefix (scattered : Scattered mark base made paths) {path : ResponsePath}
    (member : path ∈ paths) : base <+: path := by
  rcases scattered.below path member with ⟨rest, rfl, _⟩
  exact List.prefix_append _ _

theorem sublist (scattered : Scattered mark base made paths) (fewer : others.Sublist paths) :
    Scattered mark base made others where
  distinct := scattered.distinct.sublist fewer
  below path member := scattered.below path (fewer.subset member)

/-- Data that fail altogether become null. -/
theorem getD (scattered : Scattered mark base made paths) :
    Scattered mark base (some (made.getD .null)) paths where
  distinct := scattered.distinct
  below := by
    intro path member
    rcases scattered.below path member with ⟨rest, same, allowed⟩
    refine ⟨rest, same, ?_⟩
    change mark.Allows ((made.getD .null).sight rest)
    rwa [ResponseTree.sight_getD]

theorem filled (scattered : Scattered mark base made paths) {nullable : Bool} {tree : ResponseTree}
    (isFilled : ResponseTree.filled nullable made = some tree) :
    Scattered mark base (some tree) paths where
  distinct := scattered.distinct
  below := by
    intro path member
    rcases scattered.below path member with ⟨rest, same, allowed⟩
    refine ⟨rest, same, ?_⟩
    rwa [← isFilled, ResponseTree.sightIn_filled]

/-- Another mark, right at the path. -/
theorem cons (scattered : Scattered mark base made paths) (isNew : base ∉ paths)
    (allowed : mark.Allows (ResponseTree.sightIn made [])) :
    Scattered mark base made (base :: paths) where
  distinct := List.nodup_cons.mpr ⟨isNew, scattered.distinct⟩
  below := by
    intro path member
    rcases List.mem_cons.mp member with rfl | member
    · exact ⟨[], (List.append_nil _).symm, allowed⟩
    · exact scattered.below path member

/-- What becomes of a place that waited keeps the marks apart. -/
theorem place {tree : ResponseTree} {place : ResponsePath}
    (scattered : Scattered mark [] (some tree) paths) (isWaiting : tree.sight place = .waiting)
    (new : Scattered mark place made others)
    (apart : place ∉ paths ∨ mark = .call ∧ place ∉ others) :
    Scattered mark [] (tree.place place made) (paths ++ others) := by
  -- Nothing can be seen below a place that waits, so the marks before lie elsewhere or right there.
  have reached : ∀ rest, place ++ rest ∈ paths → rest = [] := by
    intro rest member
    by_contra isBelow
    rcases scattered.below _ member with ⟨path, same, allowed⟩
    rw [List.nil_append] at same
    subst same
    have unseen := ResponseTree.sight_append_of_waiting isWaiting isBelow
    exact mark.not_allows_unseen (unseen ▸ allowed)
  constructor
  · rw [List.nodup_append]
    refine ⟨scattered.distinct, new.distinct, ?_⟩
    rintro path member other otherMem rfl
    rcases new.below _ otherMem with ⟨rest, rfl, _⟩
    cases reached rest member
    rw [List.append_nil] at member otherMem
    exact apart.elim (fun absent => absent member) fun absent => absent.2 otherMem
  · intro path member
    refine ⟨path, rfl, ?_⟩
    rcases List.mem_append.mp member with member | member
    · by_cases isPrefix : place <+: path
      · rcases isPrefix with ⟨rest, rfl⟩
        cases reached rest member
        rw [List.append_nil] at member
        rcases apart with absent | ⟨isCall, _⟩
        · exact absurd member absent
        · subst isCall
          rw [ResponseTree.sightIn_place_append isWaiting]
          exact ResponseTree.sightIn_nil_ne_unseen made
      · rcases scattered.below path member with ⟨rest, same, allowed⟩
        rw [List.nil_append] at same
        subst same
        rcases @ResponseTree.sightIn_place _ made _ isWaiting _ isPrefix with same | isNulled
        · rw [same]
          exact allowed
        · rw [isNulled]
          exact mark.allows_nulled
    · rcases new.below path member with ⟨rest, rfl, allowed⟩
      rw [ResponseTree.sightIn_place_append isWaiting]
      exact allowed

end Scattered

namespace ScatteredAmong

variable {mark : Mark} {base : ResponsePath} {segment : PathSegment} {segments : List PathSegment}
  {made : Option (List ResponseTree)} {first : Option ResponseTree}
  {paths others : List ResponsePath}

theorem nil : ScatteredAmong mark base [] (some []) [] where
  distinct := List.nodup_nil
  below := by
    intro path member
    cases member

/-- Nothing is made for siblings one of which fails and cannot be null. -/
theorem stop (scattered : Scattered mark (base ++ [segment]) first paths) :
    ScatteredAmong mark base (segment :: segments) none paths where
  distinct := scattered.distinct
  below := by
    intro path member
    rcases scattered.below path member with ⟨rest, rfl, _⟩
    refine ⟨0, segment, rest, rfl, by simp, ?_⟩
    intro trees isSome
    cases isSome

theorem cons {tree : ResponseTree} (isNew : segment ∉ segments)
    (scattered : Scattered mark (base ++ [segment]) (some tree) paths)
    (among : ScatteredAmong mark base segments made others) :
    ScatteredAmong mark base (segment :: segments) (made.map (tree :: ·)) (paths ++ others) where
  distinct := by
    rw [List.nodup_append]
    refine ⟨scattered.distinct, among.distinct, ?_⟩
    rintro path member other otherMem rfl
    rcases scattered.below path member with ⟨rest, rfl, _⟩
    rcases among.below _ otherMem with ⟨index, later, further, isLater, same, _⟩
    rw [List.append_assoc] at same
    cases (List.cons.inj (List.append_cancel_left same)).1
    exact isNew (List.mem_of_getElem? isLater)
  below := by
    intro path member
    rcases List.mem_append.mp member with member | member
    · rcases scattered.below path member with ⟨rest, rfl, allowed⟩
      refine ⟨0, segment, rest, rfl, by simp, ?_⟩
      intro trees isSome
      rcases Option.map_eq_some_iff.mp isSome with ⟨remaining, _, rfl⟩
      exact ⟨tree, rfl, allowed⟩
    · rcases among.below path member with ⟨index, later, rest, isLater, rfl, allowed⟩
      refine ⟨index + 1, later, rest, isLater, rfl, ?_⟩
      intro trees isSome
      rcases Option.map_eq_some_iff.mp isSome with ⟨remaining, isRemaining, rfl⟩
      exact allowed remaining isRemaining

/-- The marks lie below the path. -/
theorem not_mem (among : ScatteredAmong mark base segments made paths) : base ∉ paths := by
  intro member
  rcases among.below base member with ⟨index, segment, rest, _, same, _⟩
  have lengths := congrArg List.length same
  simp at lengths

/-- Siblings that are the branches of a tree. -/
theorem gather {whole : Option ResponseTree} (among : ScatteredAmong mark base segments made paths)
    (branches : ∀ tree, whole = some tree → ∃ trees, made = some trees ∧
      ∀ (index : Nat) segment branch, segments[index]? = some segment →
        trees[index]? = some branch →
          ∃ nullable, tree.branch? segment = some (nullable, branch)) :
    Scattered mark base whole paths where
  distinct := among.distinct
  below := by
    intro path member
    rcases among.below path member with ⟨index, segment, rest, isSegment, rfl, allowed⟩
    refine ⟨segment :: rest, rfl, ?_⟩
    cases whole with
    | none => exact mark.allows_nulled
    | some tree =>
        rcases branches tree rfl with ⟨trees, isMade, branches⟩
        rcases allowed trees isMade with ⟨branch, isBranch, allowed⟩
        rcases branches index segment branch isSegment isBranch with ⟨nullable, found⟩
        change mark.Allows (tree.sight (segment :: rest))
        rwa [ResponseTree.sight_of_branch? found]

end ScatteredAmong

end GraphQL

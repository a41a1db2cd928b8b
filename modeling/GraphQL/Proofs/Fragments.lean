import GraphQL.Proofs.Validation.Interleaving
import Mathlib.Algebra.Order.BigOperators.Group.List
import Mathlib.Algebra.Order.Ring.Nat
import Mathlib.Logic.Relation

/-!
# Fragments that lead to one another

A fragment leads to those that it spreads and to all that these lead to. The search for cycles keeps
the names it has seen; every name that it adds has its spreads added to what is pending, so when
nothing is pending the names it has seen are closed under spreading. What the fragments that have not
been seen spread, together with what is pending, bounds the steps.
-/

namespace GraphQL

namespace Document

variable {document : Document}

/-- What the fragments weigh together whose names are not in a list. -/
def remaining (document : Document) (weight : FragmentDefinition → Nat) (names : List String) : Nat :=
  (document.fragments.map fun fragment =>
    if fragment.name.text ∈ names then 0 else weight fragment).sum

private theorem sum_add_le {fragments : List FragmentDefinition}
    (weight : FragmentDefinition → Nat) {names more : List String} (grows : names ⊆ more)
    {fragment : FragmentDefinition} (member : fragment ∈ fragments)
    (fresh : fragment.name.text ∉ names) (added : fragment.name.text ∈ more) :
    weight fragment + (fragments.map fun other =>
        if other.name.text ∈ more then 0 else weight other).sum ≤
      (fragments.map fun other => if other.name.text ∈ names then 0 else weight other).sum := by
  have pointwise (other : FragmentDefinition) :
      (if other.name.text ∈ more then 0 else weight other) ≤
        if other.name.text ∈ names then 0 else weight other := by
    by_cases known : other.name.text ∈ names
    · simp [known, grows known]
    · by_cases inMore : other.name.text ∈ more <;> simp [known, inMore]
  induction fragments with
  | nil => cases member
  | cons first rest ih =>
      simp only [List.map_cons, List.sum_cons]
      rcases List.mem_cons.mp member with rfl | member
      · have restLe := List.sum_le_sum fun other (_ : other ∈ rest) => pointwise other
        rw [if_pos added, if_neg fresh]
        omega
      · have restLe := ih member
        have firstLe := pointwise first
        omega

theorem fragment?_name {name : String} {fragment : FragmentDefinition}
    (defined : document.fragment? name = some fragment) :
    fragment ∈ document.fragments ∧ fragment.name.text = name := by
  have named := List.find?_some defined
  simp only [beq_iff_eq] at named
  exact ⟨List.mem_of_find?_eq_some defined, named⟩

theorem add_remaining_le_of_mem (weight : FragmentDefinition → Nat)
    {fragment : FragmentDefinition} (member : fragment ∈ document.fragments)
    {names more : List String} (grows : names ⊆ more) (fresh : fragment.name.text ∉ names)
    (added : fragment.name.text ∈ more) :
    weight fragment + document.remaining weight more ≤ document.remaining weight names :=
  sum_add_le weight grows member fresh added

/-- Adding the name of a fragment to a list takes away what the fragment weighs. -/
theorem add_remaining_le (weight : FragmentDefinition → Nat) {name : String}
    {fragment : FragmentDefinition} (defined : document.fragment? name = some fragment)
    {names more : List String} (grows : names ⊆ more) (fresh : name ∉ names)
    (added : name ∈ more) :
    weight fragment + document.remaining weight more ≤ document.remaining weight names := by
  rcases fragment?_name defined with ⟨member, rfl⟩
  exact add_remaining_le_of_mem weight member grows fresh added

theorem add_remaining_append_le (weight : FragmentDefinition → Nat) {name : String}
    {fragment : FragmentDefinition} (defined : document.fragment? name = some fragment)
    {names : List String} (fresh : name ∉ names) :
    weight fragment + document.remaining weight (names ++ [name]) ≤
      document.remaining weight names :=
  add_remaining_le weight defined (List.subset_append_left _ _) fresh
    (List.mem_append_right _ List.mem_cons_self)

theorem remaining_le (document : Document) (weight : FragmentDefinition → Nat) (names : List String) :
    document.remaining weight names ≤ (document.fragments.map weight).sum := by
  apply List.sum_le_sum
  intro fragment _
  split
  · exact Nat.zero_le _
  · exact Nat.le_refl _

/-- The more names are taken away, the less remains. -/
theorem remaining_le_of_subset (weight : FragmentDefinition → Nat) {names more : List String}
    (grows : names ⊆ more) : document.remaining weight more ≤ document.remaining weight names := by
  apply List.sum_le_sum
  intro fragment _
  by_cases known : fragment.name.text ∈ names
  · simp [grows known]
  · simp only [known, if_false]
    split
    · exact Nat.zero_le _
    · exact Nat.le_refl _

/-- One fragment spreads another. -/
def Spreads (document : Document) (name other : String) : Prop :=
  other ∈ document.spreadsOf name

/-- Going from spread to spread leads from one fragment to another. -/
abbrev Leads (document : Document) : String → String → Prop :=
  Relation.TransGen document.Spreads

theorem spreadsOf_eq {name : String} {fragment : FragmentDefinition}
    (defined : document.fragment? name = some fragment) :
    document.spreadsOf name = fragment.selections.spreads := by
  simp [spreadsOf, defined]

/-- What the search for cycles has left to do. -/
def pendingCost (document : Document) (seen pending : List String) : Nat :=
  pending.length + document.remaining (fun fragment => fragment.selections.spreads.length) seen

theorem pendingCost_enter {name : String} {seen pending : List String} (fresh : name ∉ seen) :
    document.pendingCost (name :: seen) (document.spreadsOf name ++ pending) <
      document.pendingCost seen (name :: pending) := by
  unfold pendingCost
  simp only [List.length_append, List.length_cons]
  cases defined : document.fragment? name with
  | none =>
      have unchanged := document.remaining_le_of_subset
        (fun fragment => fragment.selections.spreads.length) (List.subset_cons_self name seen)
      simp only [spreadsOf, defined, Option.map_none, Option.getD_none, List.length_nil]
      omega
  | some fragment =>
      have taken := add_remaining_le (fun fragment => fragment.selections.spreads.length) defined
        (List.subset_cons_self name seen) fresh List.mem_cons_self
      rw [spreadsOf_eq defined]
      omega

/-- The search has not met its start, and what the names that it has met spread is met or pending. -/
def HasFollowed (document : Document) (start : String) (seen pending : List String) : Prop :=
  ∀ name ∈ seen, name ≠ start ∧
    ∀ other, document.Spreads name other → other ∈ seen ∨ other ∈ pending

/-- A name that was met before is left out. -/
theorem HasFollowed.skip {start name : String} {seen pending : List String}
    (followed : document.HasFollowed start seen (name :: pending)) (known : name ∈ seen) :
    document.HasFollowed start seen pending := by
  intro earlier earlierMem
  refine ⟨(followed earlier earlierMem).1, fun other spreads => ?_⟩
  rcases (followed earlier earlierMem).2 other spreads with member | member
  · exact .inl member
  · rcases List.mem_cons.mp member with rfl | member
    · exact .inl known
    · exact .inr member

/-- A new name is met, and what it spreads is pending. -/
theorem HasFollowed.enter {start name : String} {seen pending : List String}
    (followed : document.HasFollowed start seen (name :: pending)) (notStart : name ≠ start) :
    document.HasFollowed start (name :: seen) (document.spreadsOf name ++ pending) := by
  intro earlier earlierMem
  rcases List.mem_cons.mp earlierMem with rfl | earlierMem
  · exact ⟨notStart, fun other spreads => .inr (List.mem_append_left _ spreads)⟩
  · refine ⟨(followed earlier earlierMem).1, fun other spreads => ?_⟩
    rcases (followed earlier earlierMem).2 other spreads with member | member
    · exact .inl (List.mem_cons_of_mem _ member)
    · rcases List.mem_cons.mp member with rfl | member
      · exact .inl List.mem_cons_self
      · exact .inr (List.mem_append_right _ member)

/-- A search that does not reach its start ends with names that are closed under spreading. -/
theorem exists_closed_of_reaches {start : String} {bound : Nat} {seen pending : List String}
    (enough : document.pendingCost seen pending < bound)
    (followed : document.HasFollowed start seen pending)
    (unreached : document.reaches start bound seen pending = false) :
    ∃ closed : List String, seen ⊆ closed ∧ pending ⊆ closed ∧ start ∉ closed ∧
      ∀ name ∈ closed, ∀ other, document.Spreads name other → other ∈ closed := by
  induction bound generalizing seen pending with
  | zero => exact absurd enough (Nat.not_lt_zero _)
  | succ bound ih =>
      cases pending with
      | nil =>
          refine ⟨seen, List.Subset.refl _, List.nil_subset _, ?_, ?_⟩
          · exact fun member => (followed start member).1 rfl
          · intro name member other spreads
            exact ((followed name member).2 other spreads).resolve_right List.not_mem_nil
      | cons name pending =>
          simp only [reaches] at unreached
          split at unreached
          · cases unreached
          · rename_i notStart
            split at unreached
            · rename_i known
              have nameSeen : name ∈ seen := List.contains_iff_mem.mp known
              have enoughLeft : document.pendingCost seen pending < bound := by
                unfold pendingCost at enough ⊢
                simp only [List.length_cons] at enough
                omega
              rcases ih enoughLeft (followed.skip nameSeen) unreached with
                ⟨closed, seenSubset, pendingSubset, avoids, closure⟩
              exact ⟨closed, seenSubset,
                List.cons_subset.mpr ⟨seenSubset nameSeen, pendingSubset⟩, avoids, closure⟩
            · rename_i unknown
              have fresh : name ∉ seen := fun member => unknown (List.contains_iff_mem.mpr member)
              have enoughLeft := Nat.lt_of_lt_of_le (document.pendingCost_enter fresh)
                (Nat.le_of_lt_succ enough)
              rcases ih enoughLeft (followed.enter notStart) unreached with
                ⟨closed, seenSubset, pendingSubset, avoids, closure⟩
              rcases List.cons_subset.mp seenSubset with ⟨nameMem, seenSubset⟩
              exact ⟨closed, seenSubset, List.cons_subset.mpr
                ⟨nameMem, (List.append_subset.mp pendingSubset).2⟩, avoids, closure⟩

theorem foldr_add_eq_sum {α : Type} (weight : α → Nat) (items : List α) :
    items.foldr (fun item rest => weight item + rest) 0 = (items.map weight).sum := by
  rw [List.sum_eq_foldr, List.foldr_map]

theorem sum_fragments_le (weight : SelectionSet → Nat) (document : Document) :
    (document.fragments.map fun fragment => weight fragment.selections).sum ≤
      document.selectionSets.foldr (fun selections rest => weight selections + rest) 0 := by
  rw [foldr_add_eq_sum, selectionSets, List.map_append, List.sum_append, List.map_map, List.map_map]
  exact Nat.le_add_left _ _

theorem remaining_spreads_le (document : Document) (names : List String) :
    document.remaining (fun fragment => fragment.selections.spreads.length) names ≤
      document.spreadCount :=
  (document.remaining_le _ names).trans
    (sum_fragments_le (fun selections => selections.spreads.length) document)

theorem length_spreadsOf_le (document : Document) (name : String) :
    (document.spreadsOf name).length ≤ document.spreadCount := by
  cases defined : document.fragment? name with
  | none => simp [spreadsOf, defined]
  | some fragment =>
      rw [spreadsOf_eq defined]
      have taken := add_remaining_le (fun fragment => fragment.selections.spreads.length) defined
        (List.nil_subset [name]) List.not_mem_nil List.mem_cons_self
      exact (Nat.le_add_right _ _).trans (taken.trans (document.remaining_spreads_le []))

/-- The search from the spreads of a fragment has enough steps. -/
theorem pendingCost_spreadsOf_lt (document : Document) (name : String) :
    document.pendingCost [] (document.spreadsOf name) < 2 * document.spreadCount + 1 := by
  have first := document.length_spreadsOf_le name
  have others := document.remaining_spreads_le []
  simp only [pendingCost]
  omega

/-- If the search for a cycle finds none, the fragment does not lead to itself. -/
theorem not_leads_self {name : String} (finite : document.spreadsItself name = false) :
    ¬document.Leads name name := by
  intro leads
  rcases exists_closed_of_reaches (document.pendingCost_spreadsOf_lt name)
    (fun _ member => absurd member List.not_mem_nil) finite with
    ⟨closed, _, pendingSubset, avoids, closure⟩
  have reached : ∀ {other : String}, document.Leads name other → other ∈ closed := by
    intro other leads
    induction leads with
    | single spreads => exact pendingSubset spreads
    | tail _ spreads ih => exact closure _ ih _ spreads
  exact avoids (reached leads)

/-- A search that reaches its start has met it among what was pending, or behind it. -/
theorem leads_of_reaches {start : String} {bound : Nat} {seen pending : List String}
    (reached : document.reaches start bound seen pending = true) :
    ∃ name ∈ pending, name = start ∨ document.Leads name start := by
  induction bound generalizing seen pending with
  | zero => cases reached
  | succ bound ih =>
      cases pending with
      | nil => cases reached
      | cons name pending =>
          simp only [reaches] at reached
          split at reached
          · rename_i isStart
            exact ⟨name, List.mem_cons_self, .inl isStart⟩
          · split at reached
            · rcases ih reached with ⟨other, member, leads⟩
              exact ⟨other, List.mem_cons_of_mem _ member, leads⟩
            · rcases ih reached with ⟨other, member, leads⟩
              rcases List.mem_append.mp member with spreads | member
              · have first : document.Spreads name other := spreads
                refine ⟨name, List.mem_cons_self, .inr ?_⟩
                rcases leads with rfl | leads
                · exact .single first
                · exact .head first leads
              · exact ⟨other, List.mem_cons_of_mem _ member, leads⟩

/-- The search for a cycle finds one just where a fragment leads to itself. -/
theorem spreadsItself_iff {name : String} :
    document.spreadsItself name = true ↔ document.Leads name name := by
  constructor
  · intro found
    rcases leads_of_reaches found with ⟨other, spreads, leads⟩
    have first : document.Spreads name other := spreads
    rcases leads with rfl | leads
    · exact .single first
    · exact .head first leads
  · intro leads
    by_contra finite
    exact not_leads_self (Bool.eq_false_iff.mpr finite) leads

instance (document : Document) (name : String) : Decidable (document.Leads name name) :=
  decidable_of_iff _ spreadsItself_iff

/-- What leads anywhere is the name of a fragment. -/
theorem Leads.exists_fragment {name other : String} (leads : document.Leads name other) :
    ∃ fragment ∈ document.fragments, fragment.name.text = name := by
  have spreads : ∃ first, document.Spreads name first := by
    rcases Relation.TransGen.head'_iff.mp leads with ⟨first, spreads, _⟩
    exact ⟨first, spreads⟩
  rcases spreads with ⟨first, spreads⟩
  cases defined : document.fragment? name with
  | none => simp [Spreads, spreadsOf, defined] at spreads
  | some fragment => exact ⟨fragment, fragment?_name defined⟩

/-- If the rule on cycles finds nothing, no fragment leads to itself. -/
theorem not_leads_self_of_silent {schema : Schema}
    (silent : (Rule.fragmentsAreFinite.findings ⟨schema, document⟩
      (Event.ofDocument schema document)).flatten = []) (name : String) :
    ¬document.Leads name name := by
  intro leads
  rcases leads.exists_fragment with ⟨fragment, member, rfl⟩
  have last : Event.endOfDocument ∈ Event.ofDocument schema document :=
    List.mem_append_right _ List.mem_cons_self
  have atEnd := Rule.ofEvent_silent silent last
  simp only [List.map_eq_nil_iff, List.filter_eq_nil_iff, Bool.not_eq_true] at atEnd
  exact Document.not_leads_self (atEnd fragment member) leads

/-- In a document that all rules accept no fragment leads to itself. -/
theorem IsValid.not_leads_self {schema : Schema} (valid : document.IsValid schema) (name : String) :
    ¬document.Leads name name :=
  not_leads_self_of_silent (valid .fragmentsAreFinite (by decide)) name

end Document

end GraphQL

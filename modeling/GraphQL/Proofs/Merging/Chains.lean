import GraphQL.Proofs.Merging.Search
import Mathlib.Tactic.Ring

/-!
# Chains of comparisons

How long a chain of comparisons can get before the search has to stop. Making a comparison with a
fragment or between fragments takes an entry from a finite stock, so such comparisons get fewer;
between two of them a chain only goes deeper into one selection set. The bound of the search is more
than the longest chain, so the search never stops because of it.
-/

namespace GraphQL
namespace Merging

variable {context : RuleContext}

instance (memory : Memory) : DecidablePred memory.Remembers := fun comparison =>
  match comparison with
  | .fields .. => .isFalse id
  | .withFragment .. => List.instDecidableMemOfLawfulBEq _ _
  | .fragments .. => instDecidableOr

/-- A comparison for every entry that can come into the memory. -/
def stock (document : Document) : List Comparison :=
  (document.spreadNames ×ˢ document.spreadNames ×ˢ [true, false]).map
      (fun entry => .fragments entry.1 entry.2.1 entry.2.2)
    ++ ((none :: document.sets.map (fun set => some set.id)) ×ˢ document.spreadNames
        ×ˢ [true, false]).map
      (fun entry => .withFragment { set := entry.1 } entry.2.1 entry.2.2)

theorem length_stock (document : Document) :
    (stock document).length =
      2 * document.spreadCount * document.spreadCount
        + 2 * (document.setCount + 1) * document.spreadCount := by
  simp [stock, List.length_product, Document.length_spreadNames, Document.length_sets]
  ring

/-- How many entries are not in the memory yet. -/
def Memory.remaining (document : Document) (memory : Memory) : Nat :=
  (stock document).countP fun comparison => ¬memory.Remembers comparison

theorem Memory.remaining_le_length (document : Document) (memory : Memory) :
    memory.remaining document ≤ (stock document).length :=
  List.countP_le_length

theorem Memory.remaining_le_of_remembers {document : Document} {memory later : Memory}
    (keeps : ∀ comparison, memory.Remembers comparison → later.Remembers comparison) :
    later.remaining document ≤ memory.remaining document := by
  apply List.countP_mono_left
  intro comparison _ fresh
  simp only [decide_eq_true_eq] at fresh ⊢
  exact fun remembered => fresh (keeps comparison remembered)

theorem countP_lt_countP {α : Type} {fewer more : α → Bool} {items : List α}
    (implies : ∀ item ∈ items, fewer item = true → more item = true) {item : α}
    (member : item ∈ items) (holds : more item = true) (fails : fewer item = false) :
    items.countP fewer < items.countP more := by
  induction items with
  | nil => cases member
  | cons first rest ih =>
      have restLe : rest.countP fewer ≤ rest.countP more :=
        List.countP_mono_left fun item itemMem => implies item (List.mem_cons_of_mem _ itemMem)
      simp only [List.countP_cons]
      rcases List.mem_cons.mp member with rfl | member
      · simp only [holds, fails, Bool.false_eq_true, if_false, if_true]
        omega
      · have smaller := ih (fun item itemMem => implies item (List.mem_cons_of_mem _ itemMem)) member
        have firstImplies := implies first List.mem_cons_self
        split <;> split <;> first | omega | simp_all

/-- How deep the selections go that a comparison of fields leads to. -/
def Comparison.depth (context : RuleContext) : Comparison → Nat
  | .fields _ left _ _ =>
      match left.returnType? context.schema, left.selections with
      | some _, some set => set.setCount + 1
      | _, _ => 1
  | _ => 0

/-- A bound on the chains of comparisons that start with one. -/
def chainBound (context : RuleContext) (memory : Memory) (comparison : Comparison) : Nat :=
  memory.remaining context.document * (context.document.setCount + 2) + comparison.depth context

theorem chainBound_le_of_remembers {memory later : Memory}
    (keeps : ∀ comparison, memory.Remembers comparison → later.Remembers comparison)
    (comparison : Comparison) :
    chainBound context later comparison ≤ chainBound context memory comparison := by
  have remaining : later.remaining context.document ≤ memory.remaining context.document :=
    Memory.remaining_le_of_remembers keeps
  unfold chainBound
  exact Nat.add_le_add_right (Nat.mul_le_mul_right _ remaining) _

theorem Comparison.IsKnown.depth_le {comparison : Comparison}
    (known : comparison.IsKnown context) :
    comparison.depth context ≤ context.document.setCount + 1 := by
  cases comparison with
  | fields key left right exclusive =>
      simp only [Comparison.depth]
      split
      · rename_i owner set returns selects
        have opens := known.1.opens returns set selects
        have bound := Document.setCount_le_of_mem opens.mem_sets
        omega
      · omega
  | withFragment grouping fragment exclusive => exact Nat.zero_le _
  | fragments left right exclusive => exact Nat.zero_le _

theorem chainBound_lt_depthBound {memory : Memory} {comparison : Comparison}
    (known : comparison.IsKnown context) :
    chainBound context memory comparison < depthBound context.document := by
  have remaining := memory.remaining_le_length context.document
  rw [length_stock] at remaining
  have deep := known.depth_le
  unfold chainBound depthBound
  have product := Nat.mul_le_mul_right (context.document.setCount + 2) remaining
  simp only [Nat.add_mul, Nat.one_mul] at product ⊢
  omega

/-- The entry of a known comparison is in the stock. -/
theorem Comparison.IsKnown.exists_mem_stock {comparison : Comparison}
    (known : comparison.IsKnown context) (entry : comparison.SameEntry comparison) :
    ∃ kept ∈ stock context.document, comparison.SameEntry kept ∧
      ∀ memory : Memory, memory.Remembers kept → memory.Remembers comparison := by
  cases comparison with
  | fields key left right exclusive => cases entry
  | withFragment grouping fragment exclusive =>
      rcases known with ⟨groupingKnown, fragmentMem⟩
      refine ⟨.withFragment { set := grouping.set } fragment exclusive, ?_, rfl, fun _ => id⟩
      apply List.mem_append_right
      refine List.mem_map.mpr ⟨(grouping.set, fragment, exclusive), ?_, rfl⟩
      refine List.pair_mem_product.mpr
        ⟨?_, List.pair_mem_product.mpr ⟨fragmentMem, by cases exclusive <;> simp⟩⟩
      rcases groupingKnown with rfl | ⟨owner, selections, opens, rfl⟩
      · exact List.mem_cons_self
      · rw [Grouping.set_ofSelectionSet]
        exact List.mem_cons_of_mem _ (List.mem_map.mpr ⟨selections, opens.mem_sets, rfl⟩)
  | fragments left right exclusive =>
      rcases known with ⟨leftMem, rightMem⟩
      refine ⟨.fragments left right exclusive, ?_, ⟨rfl, rfl⟩, fun _ => id⟩
      apply List.mem_append_left
      refine List.mem_map.mpr ⟨(left, right, exclusive), ?_, rfl⟩
      exact List.pair_mem_product.mpr
        ⟨leftMem, List.pair_mem_product.mpr ⟨rightMem, by cases exclusive <;> simp⟩⟩

theorem remaining_lt_of_isMade {memory : Memory} {comparison : Comparison} {outcome : Outcome}
    (known : comparison.IsKnown context) (entry : comparison.SameEntry comparison)
    (fresh : ¬memory.Remembers comparison)
    (made : comparison.IsMade context memory outcome) :
    outcome.memory.remaining context.document < memory.remaining context.document := by
  rcases known.exists_mem_stock entry with ⟨kept, keptMem, same, determines⟩
  refine countP_lt_countP ?_ keptMem ?_ ?_
  · intro other _ otherFresh
    simp only [decide_eq_true_eq] at otherFresh ⊢
    exact fun remembered => otherFresh ((made.remembers other).mpr (.inl remembered))
  · simp only [decide_eq_true_eq]
    exact fun remembered => fresh (determines memory remembered)
  · simp only [decide_eq_false_iff_not, not_not]
    exact (made.remembers kept).mpr (.inr same)

theorem depth_lt_of_mem_betweenSelections {leftOwner : SchemaType} {left : Option SelectionSet}
    {right : Grouping} (leftKnown : (groupingOn context.schema leftOwner left).IsKnown context)
    (rightKnown : right.IsKnown context) {exclusive : Bool} {following : Comparison}
    (member : following ∈
      betweenSelections (groupingOn context.schema leftOwner left) right exclusive) :
    following.depth context < (left.map fun set => set.setCount + 1).getD 1 := by
  simp only [betweenSelections, List.mem_append, List.mem_map, List.mem_flatMap] at member
  rcases member with ((member | ⟨name, _, rfl⟩) | ⟨name, _, rfl⟩) | ⟨first, _, second, _, rfl⟩
  · rcases (mem_between_iff_holds leftKnown rightKnown).mp member with
      ⟨first, second, firstHolds, _, _, rfl⟩
    cases left with
    | none =>
        rcases firstHolds with ⟨records, found, _⟩
        cases found
    | some set =>
        have inSet := Grouping.holds_ofSelectionSet_iff.mp firstHolds
        simp only [Comparison.depth, Option.map_some, Option.getD_some]
        split
        · rename_i selects
          have smaller := setCount_lt_of_mem_recordsIn inSet selects
          omega
        · have positive : 0 < set.setCount := by
            rcases set with ⟨id, items, span⟩
            exact Nat.succ_pos _
          omega
  · cases left <;> simp [Comparison.depth]
  · cases left <;> simp [Comparison.depth]
  · cases left <;> simp [Comparison.depth]

/-- Chains get shorter with every comparison that is made. -/
theorem chainBound_lt_of_isMade {memory : Memory} {comparison following : Comparison}
    {outcome : Outcome} (known : comparison.IsKnown context)
    (fresh : ¬memory.Remembers comparison) (made : comparison.IsMade context memory outcome)
    (member : following ∈ comparison.next context) :
    chainBound context outcome.memory following < chainBound context memory comparison := by
  have kept : outcome.memory.remaining context.document ≤ memory.remaining context.document :=
    Memory.remaining_le_of_remembers fun other remembered =>
      (made.remembers other).mpr (.inl remembered)
  have followingDepth := (known.next member).depth_le
  have taken (entry : comparison.SameEntry comparison) :
      chainBound context outcome.memory following < chainBound context memory comparison := by
    have fewer := remaining_lt_of_isMade known entry fresh made
    have product := Nat.mul_le_mul_right (context.document.setCount + 2) fewer
    simp only [Nat.succ_eq_add_one, Nat.add_mul, Nat.one_mul] at product
    unfold chainBound
    omega
  cases comparison with
  | fields key left right exclusive =>
      have product := Nat.mul_le_mul_right (context.document.setCount + 2) kept
      have deeper : following.depth context <
          (Comparison.fields key left right exclusive).depth context := by
        simp only [Comparison.next] at member
        split at member
        · rename_i leftType rightType leftReturns rightReturns
          have smaller := depth_lt_of_mem_betweenSelections (known.1.isKnown leftReturns)
            (known.2.isKnown rightReturns) member
          have same : (Comparison.fields key left right exclusive).depth context =
              (left.selections.map fun set => set.setCount + 1).getD 1 := by
            simp only [Comparison.depth, leftReturns]
            cases left.selections <;> rfl
          rw [same]
          exact smaller
        · cases member
      unfold chainBound
      omega
  | withFragment grouping fragment exclusive => exact taken rfl
  | fragments left right exclusive => exact taken ⟨rfl, rfl⟩

end Merging
end GraphQL

import GraphQL.Execution.Settling
import Mathlib.Algebra.Order.Ring.Nat
import Mathlib.Order.Bounds.Basic

/-!
# Chains of nested nodes

The depth of an operation and the number of places on its longest way down are computed over all
object types at once. Both are what a heaviest chain of nested nodes weighs: a node weighs one for
the depth, where only included nodes count, and one for its value and each list around it for the
places.
-/

namespace GraphQL
namespace PlanNode

/-- The nodes directly below a node, for any object type. -/
def inner (node : PlanNode) : List (String × PlanNode) :=
  node.typedChildren.flatMap Prod.snd

/-- Nodes that are admitted and nested in one another, the first among some children. -/
def IsChain (admits : PlanNode → Bool) : List (String × PlanNode) → List PlanNode → Prop
  | _, [] => True
  | children, node :: rest =>
      node ∈ children.map Prod.snd ∧ admits node = true ∧ IsChain admits node.inner rest

theorem IsChain.of_cons {admits : PlanNode → Bool} {entry : String × PlanNode}
    {children : List (String × PlanNode)} {chain : List PlanNode}
    (isChain : IsChain admits children chain) : IsChain admits (entry :: children) chain := by
  cases chain with
  | nil => trivial
  | cons node rest => exact ⟨List.mem_cons_of_mem _ isChain.1, isChain.2⟩

/-- Children measure the most that an admitted one of them weighs with what is below it. -/
structure Measures (admits : PlanNode → Bool) (weight : PlanNode → Nat)
    (measure : List (String × PlanNode) → Nat) : Prop where
  nil : measure [] = 0
  cons : ∀ key node rest, measure ((key, node) :: rest) =
    max (if admits node then weight node + measure node.inner else 0) (measure rest)
  positive : ∀ node, 0 < weight node

namespace Measures

variable {admits : PlanNode → Bool} {weight : PlanNode → Nat}
  {measure : List (String × PlanNode) → Nat}

theorem le_of_mem (measures : Measures admits weight measure)
    {children : List (String × PlanNode)} {node : PlanNode}
    (member : node ∈ children.map Prod.snd) (admitted : admits node = true) :
    weight node + measure node.inner ≤ measure children := by
  induction children with
  | nil => cases member
  | cons entry rest ih =>
      rw [measures.cons]
      rcases List.mem_cons.mp member with rfl | member
      · rw [if_pos admitted]
        exact Nat.le_max_left _ _
      · exact Nat.le_trans (ih member) (Nat.le_max_right _ _)

/-- No chain weighs more than its children measure. -/
theorem sum_le (measures : Measures admits weight measure) {chain : List PlanNode}
    {children : List (String × PlanNode)} (isChain : IsChain admits children chain) :
    (chain.map weight).sum ≤ measure children := by
  induction chain generalizing children with
  | nil => exact Nat.zero_le _
  | cons node rest ih =>
      rcases isChain with ⟨member, admitted, below⟩
      rw [List.map_cons, List.sum_cons]
      exact Nat.le_trans (Nat.add_le_add_left (ih below) _) (measures.le_of_mem member admitted)

/-- Some chain weighs what its children measure. Below an admitted node less is left to measure. -/
theorem exists_chain (measures : Measures admits weight measure)
    (children : List (String × PlanNode)) :
    ∃ chain, IsChain admits children chain ∧ (chain.map weight).sum = measure children := by
  induction total : measure children using Nat.strong_induction_on generalizing children with
  | _ total below =>
      subst total
      induction children with
      | nil => exact ⟨[], trivial, measures.nil.symm⟩
      | cons entry rest ih =>
          rcases entry with ⟨key, node⟩
          have later (isLater : measure ((key, node) :: rest) = measure rest) :
              ∃ chain, IsChain admits ((key, node) :: rest) chain ∧
                (chain.map weight).sum = measure ((key, node) :: rest) := by
            rcases ih (isLater ▸ below) with ⟨chain, isChain, weighs⟩
            exact ⟨chain, isChain.of_cons, isLater ▸ weighs⟩
          have split := measures.cons key node rest
          cases admitted : admits node with
          | false =>
              rw [admitted, if_neg Bool.false_ne_true, Nat.zero_max] at split
              exact later split
          | true =>
              rw [admitted, if_pos rfl] at split
              rcases Nat.le_total (weight node + measure node.inner) (measure rest) with less | more
              · exact later (split.trans (Nat.max_eq_right less))
              · rw [Nat.max_eq_left more] at split
                have positive := measures.positive node
                rcases below (measure node.inner) (by omega) node.inner rfl with
                  ⟨chain, isChain, weighs⟩
                refine ⟨node :: chain, ⟨List.mem_cons_self, admitted, isChain⟩, ?_⟩
                rw [List.map_cons, List.sum_cons, weighs, split]

/-- Children measure what the heaviest chain among them weighs. -/
theorem isGreatest (measures : Measures admits weight measure)
    (children : List (String × PlanNode)) :
    IsGreatest {total | ∃ chain, IsChain admits children chain ∧ (chain.map weight).sum = total}
      (measure children) := by
  refine ⟨measures.exists_chain children, ?_⟩
  rintro total ⟨chain, isChain, rfl⟩
  exact measures.sum_le isChain

end Measures

/-! ## Depth -/

theorem childrenDepth_append (bindings : Variables) (first second : List (String × PlanNode)) :
    childrenDepth bindings (first ++ second) =
      max (childrenDepth bindings first) (childrenDepth bindings second) := by
  induction first with
  | nil => simp [childrenDepth]
  | cons entry rest ih => rw [List.cons_append, childrenDepth, childrenDepth, ih, Nat.max_assoc]

theorem typedDepth_eq (bindings : Variables)
    (typedChildren : List (String × List (String × PlanNode))) :
    typedDepth bindings typedChildren =
      childrenDepth bindings (typedChildren.flatMap Prod.snd) := by
  induction typedChildren with
  | nil => rfl
  | cons typed rest ih => rw [typedDepth, List.flatMap_cons, childrenDepth_append, ih]

theorem depth_eq (bindings : Variables) (node : PlanNode) :
    node.depth bindings = 1 + childrenDepth bindings node.inner := by
  rw [inner, ← typedDepth_eq]
  cases node
  rw [depth]

/-- The depth of children is the length of a longest chain of included nodes. -/
theorem measures_childrenDepth (bindings : Variables) :
    Measures (·.isIncluded bindings) (fun _ => 1) (childrenDepth bindings) where
  nil := rfl
  cons key node rest := by rw [childrenDepth, depth_eq]
  positive _ := Nat.one_pos

/-! ## Places -/

/-- The places of a value of a node: one for the value and one for every list around it. -/
def valuePlaces (node : PlanNode) : Nat :=
  1 + node.returnType.listDepth

theorem childrenPlaces_append (first second : List (String × PlanNode)) :
    childrenPlaces (first ++ second) = max (childrenPlaces first) (childrenPlaces second) := by
  induction first with
  | nil => simp [childrenPlaces]
  | cons entry rest ih => rw [List.cons_append, childrenPlaces, childrenPlaces, ih, Nat.max_assoc]

theorem typedPlaces_eq (typedChildren : List (String × List (String × PlanNode))) :
    typedPlaces typedChildren = childrenPlaces (typedChildren.flatMap Prod.snd) := by
  induction typedChildren with
  | nil => rfl
  | cons typed rest ih => rw [typedPlaces, List.flatMap_cons, childrenPlaces_append, ih]

/-- The places of children are those on a chain of nodes that has the most. -/
theorem measures_childrenPlaces : Measures (fun _ => true) valuePlaces childrenPlaces where
  nil := rfl
  cons key node rest := by
    rw [childrenPlaces, if_pos rfl, inner, ← typedPlaces_eq, valuePlaces]
    cases node
    rw [places]
  positive node := Nat.lt_of_lt_of_le Nat.one_pos (Nat.le_add_right _ _)

end PlanNode
end GraphQL

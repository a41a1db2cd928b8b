import GraphQL.Proofs.Validation.Interleaving

/-!
# Independent rules

A validation with several rules finds what its rules find one by one. Each rule is watched on its own
by a validation of which it is the only rule, and the findings of all rules together are an
interleaving of these. So no rule can silence another, the order of the rules only reorders what is
found, and a plan is the plan of the document whatever rules have looked at it.
-/

namespace GraphQL

namespace Interleaves

variable {α ι : Type} {items : List ι} {part : ι → List α} {whole : List α}

/-- Merged parts of some items have the members that the items have in turn. -/
theorem perm_flatMap (merged : Interleaves (items.map part) whole) :
    whole.Perm (items.flatMap part) := by
  rw [List.flatMap_def]
  exact merged.perm

end Interleaves

namespace Validator

variable {validator : Validator} {document : Document} {lines? : Option LineIndex}

/-- Without a limit on the nodes every document has a result. -/
theorem exists_validate_eq (validator : Validator) (unlimited : validator.limits.maxNodes = none)
    (document : Document) (lines? : Option LineIndex) :
    ∃ result, validator.validate document lines? = .ok result := by
  rcases Watcher.exists_walk_eq ⟨validator.schema, document⟩ 0
    (validator.rules.map fun kind => Watcher.start kind.rule) []
    (Event.ofDocument validator.schema document) with ⟨walked, ends⟩
  simp only [validate, unlimited, ends]
  exact ⟨_, rfl⟩

/-- A rule by itself finds what it adds to the findings of other rules. -/
theorem findings_of_singleton {kind : RuleKind} {result : ValidationResult}
    (single : validator.rules = [kind]) (validated : validator.validate document lines? = .ok result) :
    result.findings = validator.findingsOf document lines? kind := by
  have merged := (validate_interleaves validated).1
  rw [single] at merged
  exact merged.eq_of_singleton

/-- Every list of rules has a result, which is made of the results of the single rules: their
findings are merged, each in its order, and a plan that is given is the one that is given without
rules. -/
theorem rules_are_independent (schema : Schema) (document : Document) (lines? : Option LineIndex)
    (maxDepth : Option Nat) :
    ∃ run : List RuleKind → ValidationResult,
      (∀ rules, Validator.validate { schema, rules, limits := { maxDepth } } document lines? =
        .ok (run rules)) ∧
      ∀ rules,
        Interleaves (rules.map fun kind => (run [kind]).findings) (run rules).findings ∧
        (run rules).findings.Perm (rules.flatMap fun kind => (run [kind]).findings) ∧
        ((run rules).isValid = true ↔ ∀ kind ∈ rules, (run [kind]).isValid = true) ∧
        (∀ others, rules.Perm others → (run rules).findings.Perm (run others).findings) ∧
        ∃ bare, (withoutRules { schema, rules, limits := { maxDepth } }).validate document lines? =
            .ok bare ∧
          ∀ plan, (run rules).plan? = some plan → bare.plan? = some plan := by
  have ends (rules : List RuleKind) :=
    exists_validate_eq { schema, rules, limits := { maxDepth } } rfl document lines?
  choose run validated using ends
  refine ⟨run, validated, fun rules => ?_⟩
  -- The findings of a single rule do not depend on the list that the rule is taken from.
  have alone (kind : RuleKind) : (run [kind]).findings =
      findingsOf { schema, limits := { maxDepth } } document lines? kind := by
    have single := findings_of_singleton rfl (validated [kind])
    exact single
  have merged (rules : List RuleKind) :
      Interleaves (rules.map fun kind => (run [kind]).findings) (run rules).findings := by
    simp only [alone]
    exact (validate_interleaves (validated rules)).1
  refine ⟨merged rules, (merged rules).perm_flatMap, ?_, fun others perm => ?_, _, validated [],
    fun plan planned => ?_⟩
  · simp only [ValidationResult.isValid, List.isEmpty_iff, (merged rules).eq_nil_iff,
      List.forall_mem_map]
  · exact ((merged rules).perm_flatMap.trans (perm.flatMap_right _)).trans
      (merged others).perm_flatMap.symm
  · have planOf (rules : List RuleKind) := (validate_interleaves (validated rules)).2
    have silent : (run []).findings = [] := (merged []).eq_nil_iff.mpr (by simp)
    rw [planOf] at planned ⊢
    split at planned
    · rw [silent]
      exact planned
    · cases planned

end Validator

end GraphQL

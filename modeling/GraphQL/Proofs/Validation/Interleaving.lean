import GraphQL.Validation
import Mathlib.Data.List.Basic
import Mathlib.Data.List.Perm.Basic

/-!
# Interleaved findings

The rules of a walk report into one list. What each of them finds depends on its own memory and on
the events alone, so the list is an interleaving: it can be taken apart into what the rules find when
they look at the events by themselves, and the findings of one rule stand in it in their order. So a
validation that finds nothing is one in which no rule finds anything at any event.
-/

namespace GraphQL

variable {α : Type}

/-- A list is merged from several parts, each of which keeps its order: the first member is the first
one of some part, and the others are merged from what is left. -/
inductive Interleaves : List (List α) → List α → Prop where
  | nil {parts : List (List α)} (empty : ∀ part ∈ parts, part = []) : Interleaves parts []
  | cons {before after : List (List α)} {first : α} {part whole : List α}
      (others : Interleaves (before ++ part :: after) whole) :
      Interleaves (before ++ (first :: part) :: after) (first :: whole)

namespace Interleaves

variable {parts others : List (List α)} {whole more : List α}

/-- Nothing is lost and nothing is added. -/
theorem perm (merged : Interleaves parts whole) : whole.Perm parts.flatten := by
  induction merged with
  | nil empty => rw [List.flatten_eq_nil_iff.mpr empty]
  | @cons before after first part whole others ih =>
      simp only [List.flatten_append, List.flatten_cons, List.cons_append] at ih ⊢
      exact (ih.cons first).trans List.perm_middle.symm

/-- Every part stands in the whole in its order. -/
theorem sublist (merged : Interleaves parts whole) : ∀ part ∈ parts, part.Sublist whole := by
  induction merged with
  | nil empty => exact fun part member => by rw [empty part member]
  | @cons before after first part whole others ih =>
      intro other member
      rcases List.mem_append.mp member with member | member
      · exact (ih other (by simp [member])).cons first
      · rcases List.mem_cons.mp member with rfl | member
        · exact (ih part (by simp)).cons_cons first
        · exact (ih other (by simp [member])).cons first

theorem eq_nil_iff (merged : Interleaves parts whole) : whole = [] ↔ ∀ part ∈ parts, part = [] := by
  rw [← List.flatten_eq_nil_iff]
  exact ⟨fun isNil => (isNil ▸ merged.perm).nil_eq.symm, fun isNil => (isNil ▸ merged.perm).eq_nil⟩

/-- A single part is the whole. -/
theorem eq_of_singleton {part : List α} (merged : Interleaves [part] whole) : whole = part := by
  have sub := merged.sublist part List.mem_cons_self
  have perm := merged.perm
  simp only [List.flatten_cons, List.flatten_nil, List.append_nil] at perm
  exact (sub.eq_of_length perm.length_eq.symm).symm

theorem addEmpty (merged : Interleaves parts whole) : Interleaves ([] :: parts) whole := by
  induction merged with
  | nil empty => exact .nil (by simpa using empty)
  | @cons before after first part whole others ih => exact @cons _ ([] :: before) _ _ _ _ ih

theorem prepend (part : List α) (merged : Interleaves parts whole) :
    Interleaves (part :: parts) (part ++ whole) := by
  induction part with
  | nil => exact merged.addEmpty
  | cons first rest ih => exact @cons _ [] _ _ _ _ ih

/-- One part after the other. -/
theorem flatten (parts : List (List α)) : Interleaves parts parts.flatten := by
  induction parts with
  | nil => exact .nil (by simp)
  | cons part parts ih => exact ih.prepend part

theorem zipWith_append_of_empty (sameLength : parts.length = others.length)
    (empty : ∀ part ∈ parts, part = []) : List.zipWith (· ++ ·) parts others = others := by
  induction parts generalizing others with
  | nil =>
      rw [List.length_eq_zero_iff.mp sameLength.symm]
      rfl
  | cons part parts ih =>
      cases others with
      | nil => cases sameLength
      | cons other others =>
          rw [List.zipWith_cons_cons, empty part List.mem_cons_self, List.nil_append,
            ih (Nat.succ.inj sameLength) fun part member => empty part (List.mem_cons_of_mem _ member)]

/-- What is merged later follows in every part. -/
theorem append (merged : Interleaves parts whole) (sameLength : parts.length = others.length)
    (later : Interleaves others more) :
    Interleaves (List.zipWith (· ++ ·) parts others) (whole ++ more) := by
  induction merged generalizing others with
  | nil empty =>
      rw [zipWith_append_of_empty sameLength empty]
      exact later
  | @cons before after first part whole _ ih =>
      -- The part that gives the next member is followed by the part at the same place.
      obtain ⟨front, other, back, rfl, sameFront⟩ : ∃ front other back,
          others = front ++ other :: back ∧ before.length = front.length := by
        rw [List.length_append, List.length_cons] at sameLength
        have inside : before.length < others.length := by omega
        refine ⟨_, _, _, ((List.take_append_drop before.length others).symm.trans
          (congrArg _ (List.drop_eq_getElem_cons inside))), ?_⟩
        rw [List.length_take, Nat.min_eq_left (Nat.le_of_lt inside)]
      have merged := ih (by simpa using sameLength) later
      rw [List.zipWith_append sameFront, List.zipWith_cons_cons] at merged ⊢
      exact .cons merged

end Interleaves

/-! ## Watchers -/

namespace Watcher

variable (context : RuleContext)

/-- What a watcher finds at the events still ahead when it is by itself. -/
def findings (events : List Event) (watcher : Watcher) : List Diagnostic :=
  (watcher.rule.findingsFrom context watcher.memory events).flatten

/-- The watcher after an event. -/
def next (event : Event) (watcher : Watcher) : Watcher :=
  ⟨watcher.rule, (watcher.rule.watch context watcher.memory event).1⟩

/-- What the watcher finds at an event. -/
def found (event : Event) (watcher : Watcher) : List Diagnostic :=
  (watcher.rule.watch context watcher.memory event).2

/-- At one event the watchers do not hear of one another. -/
theorem look_eq (event : Event) (watchers : List Watcher) (findings : List Diagnostic) :
    look context event watchers findings =
      (watchers.map (next context event),
        findings ++ (watchers.map (found context event)).flatten) := by
  induction watchers generalizing findings with
  | nil => simp [look]
  | cons watcher others ih =>
      rcases watcher with ⟨rule, memory⟩
      simp only [look, ih, List.map_cons, List.flatten_cons, List.append_assoc]
      rfl

variable {context}

/-- At the end of a walk the findings of the watchers have been merged. -/
theorem walk_interleaves {limit? : Option Nat} {nodes : Nat} {watchers : List Watcher}
    {findings walked : List Diagnostic} {events : List Event}
    (ends : walk context limit? nodes watchers findings events = .ok walked) :
    ∃ more, walked = findings ++ more ∧
      Interleaves (watchers.map (Watcher.findings context events)) more := by
  induction events generalizing nodes watchers findings with
  | nil =>
      cases ends
      refine ⟨[], (List.append_nil _).symm, .nil fun part member => ?_⟩
      rcases List.mem_map.mp member with ⟨watcher, _, rfl⟩
      rfl
  | cons event rest ih =>
      simp only [walk, look_eq] at ends
      split at ends
      · cases ends
      · rcases ih ends with ⟨more, rfl, merged⟩
        refine ⟨_, List.append_assoc .., ?_⟩
        have whole := (Interleaves.flatten (watchers.map (found context event))).append
          (by simp) merged
        rwa [List.map_map, List.zipWith_map, List.zipWith_self] at whole

/-- Without a limit a walk comes to its end. -/
theorem exists_walk_eq (context : RuleContext) (nodes : Nat) (watchers : List Watcher)
    (findings : List Diagnostic) (events : List Event) :
    ∃ walked, walk context none nodes watchers findings events = .ok walked := by
  induction events generalizing nodes watchers findings with
  | nil => exact ⟨findings, rfl⟩
  | cons event rest ih => exact ih _ _ _

end Watcher

namespace Validator

variable {validator : Validator} {document : Document} {lines? : Option LineIndex}
  {result : ValidationResult}

/-- What a rule finds when it is the only one: at the events of the document and in the plan. -/
def findingsOf (validator : Validator) (document : Document) (lines? : Option LineIndex)
    (kind : RuleKind) : List Diagnostic :=
  (kind.rule.findings ⟨validator.schema, document⟩
      (Event.ofDocument validator.schema document)).flatten ++
    kind.planFindings validator.limits (Plan.ofDocument validator.schema document lines?)

/-- A validation merges what its rules find, and gives the plan of the document if that is nothing. -/
theorem validate_interleaves (validated : validator.validate document lines? = .ok result) :
    Interleaves (validator.rules.map (validator.findingsOf document lines?)) result.findings ∧
      result.plan? = if result.findings.isEmpty then
        some (Plan.ofDocument validator.schema document lines?) else none := by
  simp only [validate] at validated
  split at validated
  · cases validated
  · rename_i walked ends
    cases validated
    rcases Watcher.walk_interleaves ends with ⟨more, rfl, merged⟩
    refine ⟨?_, rfl⟩
    have whole := merged.append (by simp) (Interleaves.flatten (validator.rules.map fun kind =>
      kind.planFindings validator.limits (Plan.ofDocument validator.schema document lines?)))
    rw [List.map_map, List.zipWith_map, List.zipWith_self] at whole
    simp only [List.flatMap_def]
    exact whole

end Validator

/-! ## Validations without findings -/

namespace Rule

theorem findings_ofEvent (find : RuleContext → Event → List Diagnostic) (context : RuleContext)
    (events : List Event) : (ofEvent find).findings context events = events.map (find context) := by
  unfold findings
  induction events with
  | nil => rfl
  | cons event rest ih => exact congrArg (find context event :: ·) ih

theorem ofEvent_silent {find : RuleContext → Event → List Diagnostic} {context : RuleContext}
    {events : List Event} (silent : ((ofEvent find).findings context events).flatten = [])
    {event : Event} (met : event ∈ events) : find context event = [] := by
  rw [findings_ofEvent, List.flatten_eq_nil_iff] at silent
  exact silent _ (List.mem_map_of_mem met)

end Rule

/-- No rule finds anything in the document. -/
def Document.IsValid (schema : Schema) (document : Document) : Prop :=
  ∀ kind ∈ RuleKind.all,
    (kind.rule.findings ⟨schema, document⟩ (Event.ofDocument schema document)).flatten = []

namespace Validator

variable {validator : Validator} {document : Document} {lines? : Option LineIndex}
  {result : ValidationResult}

/-- In a validation that finds nothing no rule finds anything. -/
theorem findings_eq_nil_of_validate {kind : RuleKind} (member : kind ∈ validator.rules)
    (validated : validator.validate document lines? = .ok result) (valid : result.findings = []) :
    (kind.rule.findings ⟨validator.schema, document⟩
      (Event.ofDocument validator.schema document)).flatten = [] := by
  have merged := (validate_interleaves validated).1
  exact (List.append_eq_nil_iff.mp (merged.eq_nil_iff.mp valid _ (List.mem_map_of_mem member))).1

/-- A validation that finds nothing gives the plan of the document. -/
theorem plan?_of_validate (validated : validator.validate document lines? = .ok result)
    (valid : result.findings = []) :
    result.plan? = some (Plan.ofDocument validator.schema document lines?) := by
  rw [(validate_interleaves validated).2, if_pos (List.isEmpty_iff.mpr valid)]

/-- A validation with all rules that finds nothing accepts only such documents. -/
theorem isValid_of_validate (allRules : validator.rules = RuleKind.all)
    (validated : validator.validate document lines? = .ok result) (valid : result.findings = []) :
    document.IsValid validator.schema :=
  fun _ member => findings_eq_nil_of_validate (allRules ▸ member) validated valid

end Validator

end GraphQL

import GraphQL.Proofs.Plan.Completeness
import GraphQL.Proofs.Validation.Termination

/-!
# Fragments that spread themselves

The rule on cycles looks at the fragments when the walk is over, and finds those from which a chain
of spreads leads back to them. Planning knows nothing of the rule: it keeps the fragments that it has
entered and does not enter them again. Where the rule finds nothing, it is never asked to. All that
has been entered leads to what is spread further down, through fields as well, so to be asked again
would close a chain.
-/

namespace GraphQL

/-! ## Where the walk ends -/

namespace Event

theorem not_mem_ofDirectives_endOfDocument {location : DirectiveLocation}
    {directives : List Directive} : endOfDocument ∉ ofDirectives location directives := by
  simp [ofDirectives]

mutual

theorem not_mem_ofSelection_endOfDocument (schema : Schema) (type : Option SchemaType) :
    ∀ selection : Selection, endOfDocument ∉ ofSelection schema type selection
  | .field head none => by
      simp [ofSelection, not_mem_ofDirectives_endOfDocument]
  | .field head (some ⟨id, items, span⟩) => by
      simp [ofSelection, ofSelectionSet, not_mem_ofDirectives_endOfDocument,
        not_mem_ofSelections_endOfDocument schema _ items]
  | .spread head => by
      simp [ofSelection, not_mem_ofDirectives_endOfDocument]
  | .inlineFragment head ⟨id, items, span⟩ => by
      simp [ofSelection, ofSelectionSet, not_mem_ofDirectives_endOfDocument,
        not_mem_ofSelections_endOfDocument schema _ items]

theorem not_mem_ofSelections_endOfDocument (schema : Schema) (type : Option SchemaType) :
    ∀ items : List Selection, endOfDocument ∉ ofSelections schema type items
  | [] => by simp [ofSelections]
  | selection :: rest => by
      simp [ofSelections, not_mem_ofSelection_endOfDocument schema type selection,
        not_mem_ofSelections_endOfDocument schema type rest]

end

/-- No definition is the end of the walk. -/
theorem not_mem_ofDefinition_endOfDocument {schema : Schema} {definition : Definition} :
    endOfDocument ∉ ofDefinition schema definition := by
  have inside (type : Option SchemaType) (selections : SelectionSet) :
      endOfDocument ∉ ofSelectionSet schema type selections := by
    cases selections
    exact not_mem_ofSelections_endOfDocument schema type _
  cases definition <;>
    simp [ofDefinition, ofOperation, ofFragment, not_mem_ofDirectives_endOfDocument, inside]

end Event

/-- A rule that looks at the end of the walk only finds what it finds there. -/
theorem Rule.findings_atEnd {find : RuleContext → Event → List Diagnostic} {context : RuleContext}
    (quiet : ∀ event, event ≠ .endOfDocument → find context event = []) (schema : Schema)
    (document : Document) :
    ((Rule.ofEvent find).findings context (Event.ofDocument schema document)).flatten =
      find context .endOfDocument := by
  have before : ((document.definitions.flatMap (Event.ofDefinition schema)).map
      (find context)).flatten = [] := by
    rw [List.flatten_eq_nil_iff]
    intro found member
    rcases List.mem_map.mp member with ⟨event, met, rfl⟩
    rcases List.mem_flatMap.mp met with ⟨definition, _, inside⟩
    apply quiet
    rintro rfl
    exact Event.not_mem_ofDefinition_endOfDocument inside
  rw [findings_ofEvent, Event.ofDocument, List.map_append, List.flatten_append, before]
  simp

/-! ## What is entered -/

namespace Plan

/-- All fragments that have been entered lead to what is spread where fields are collected. -/
theorem CollectsFrom.isBelow {sources : Sources} {definition : OperationDefinition}
    {object : SchemaType} {entered : List String} {items : List Selection}
    (collects : CollectsFrom sources definition object entered items) :
    IsBelow sources.document entered items := by
  induction collects with
  | root starts => exact fun name member => absurd member List.not_mem_nil
  | child level grouped possible member selects =>
      exact level.isBelow (mem_of_grouped grouped member).1 selects
  | inlineFragment _ member _ ih => exact ih.inlineFragment member
  | spread _ member defined _ _ ih => exact ih.spread member defined

/-- If no fragment leads to itself, no spread is met inside the fragment that it spreads. -/
theorem CollectsFrom.not_mem_entered {sources : Sources} {definition : OperationDefinition}
    {object : SchemaType} {entered : List String} {items : List Selection}
    (collects : CollectsFrom sources definition object entered items)
    (acyclic : ∀ name, ¬sources.document.Leads name name) {head : FragmentSpread}
    (member : .spread head ∈ items) : head.name.text ∉ entered := by
  intro before
  exact acyclic _ (collects.isBelow _ before _ (Selection.mem_listSpreads_of_spread member))

end Plan

namespace Document

/-- The rule on cycles reports just the fragments from which spreads lead back to them, and its
search comes to its end from every name, with the answer whether they do. Where it reports nothing,
no spread that is met while an operation is planned has been entered on the way. -/
theorem cycles_reported_exactly (schema : Schema) (document : Document)
    (lines? : Option LineIndex) :
    let reported := (Rule.fragmentsAreFinite.findings ⟨schema, document⟩
      (Event.ofDocument schema document)).flatten
    reported = (document.fragments.filter fun fragment =>
        document.Leads fragment.name.text fragment.name.text).map (fun fragment =>
          Rule.finding .fragmentCycle
            ("Fragment " ++ fragment.name.text ++ " contains an infinite loop") [fragment.span]) ∧
      (∀ name, Searches document name [] (document.spreadsOf name)
        (decide (document.Leads name name))) ∧
      (reported = [] → ∀ definition ∈ document.operations,
        ∀ {object : SchemaType} {entered : List String} {items : List Selection},
          Plan.CollectsFrom { schema, document, lines? } definition object entered items →
            ∀ head, .spread head ∈ items → head.name.text ∉ entered) := by
  have search (name : String) :
      document.spreadsItself name = decide (document.Leads name name) := by
    rw [Bool.eq_iff_iff, spreadsItself_iff, decide_eq_true_iff]
  refine ⟨?_, ?_, ?_⟩
  · refine (Rule.findings_atEnd ?_ schema document).trans ?_
    · intro event notEnd
      cases event with
      | endOfDocument => exact absurd rfl notEnd
      | _ => rfl
    · simp only [search]
  · intro name
    rw [← search]
    exact searches_spreadsItself document name
  · intro silent definition _ object entered items collects head member
    exact collects.not_mem_entered (not_leads_self_of_silent silent) member

end Document

namespace SpreadByAnother

/-- One fragment spreads itself through another one. A third leads to them, but not to itself. -/
def circular : Document :=
  ((Document.parse
      ("{ ...H } fragment F on Q { a { ...G } } fragment G on Q { ... { ...F } } " ++
        "fragment H on Q { ...F }")).toOption.map (·.document)).getD ⟨[], ⟨0, 0⟩⟩

def schema : Schema :=
  (Schema.ofSource "type Query { a: Int }").toOption.getD {}

/-- A fragment spreads another one, which is met after the first was entered. -/
def straight : Document :=
  ((Document.parse
      "{ ...F } fragment F on Query { ...G } fragment G on Query { a }").toOption.map
    (·.document)).getD ⟨[], ⟨0, 0⟩⟩

theorem evaluation :
    ((circular.fragments.filter fun fragment =>
        circular.Leads fragment.name.text fragment.name.text).map (·.name.text)) = ["F", "G"] ∧
    ¬circular.Leads "H" "H" ∧
    (straight.fragments.filter fun fragment =>
        straight.Leads fragment.name.text fragment.name.text).isEmpty = true ∧
    straight.operations.any (fun definition =>
      (schema.rootType? definition.kind).any fun object =>
        definition.selections.items.any fun
          | .spread outer => outer.name.text == "F" &&
              (straight.fragment? outer.name.text).any fun fragment =>
                schema.conditionApplies (some fragment.typeCondition.text) object &&
                  fragment.selections.items.any fun
                    | .spread inner => inner.name.text == "G"
                    | _ => false
          | _ => false) = true := by
  decide +kernel

/-- The cycle is reported at both its fragments and at no other. Where there is none, the second
fragment has not been entered when it is met inside the first. -/
theorem reported_on_cycle :
    ((Rule.fragmentsAreFinite.findings ⟨schema, circular⟩
        (Event.ofDocument schema circular)).flatten.map (·.title) =
      ["Fragment F contains an infinite loop", "Fragment G contains an infinite loop"]) ∧
    Searches circular "H" [] (circular.spreadsOf "H") false ∧
    ∃ definition ∈ straight.operations, ∃ object items head,
      Plan.CollectsFrom { schema, document := straight, lines? := none } definition object ["F"]
          items ∧
        .spread head ∈ items ∧ head.name.text = "G" ∧ head.name.text ∉ ["F"] := by
  rcases evaluation with ⟨circles, acyclic, finite, present⟩
  have inCircles := Document.cycles_reported_exactly schema circular none
  have ahead := Document.cycles_reported_exactly schema straight none
  refine ⟨?_, ?_, ?_⟩
  · have titles := congrArg
      (List.map fun name => "Fragment " ++ name ++ " contains an infinite loop") circles
    rw [List.map_map] at titles
    rw [inCircles.1, List.map_map]
    exact titles
  · have ends := inCircles.2.1 "H"
    rwa [decide_eq_false acyclic] at ends
  · rcases List.any_eq_true.mp present with ⟨definition, inDocument, present⟩
    rcases (Option.any_eq_true _ _).mp present with ⟨object, starts, present⟩
    rcases List.any_eq_true.mp present with ⟨selection, member, present⟩
    cases selection with
    | field head selections => cases present
    | inlineFragment head selections => cases present
    | spread outer =>
        rw [Bool.and_eq_true, beq_iff_eq] at present
        rcases present with ⟨named, present⟩
        rcases (Option.any_eq_true _ _).mp present with ⟨fragment, defined, present⟩
        rw [Bool.and_eq_true] at present
        rcases present with ⟨applies, present⟩
        rcases List.any_eq_true.mp present with ⟨selection, innerMember, present⟩
        cases selection with
        | field head selections => cases present
        | inlineFragment head selections => cases present
        | spread inner =>
            have collects : Plan.CollectsFrom { schema, document := straight, lines? := none }
                definition object ["F"] fragment.selections.items := by
              rw [← named]
              exact .spread (.root starts) member defined List.not_mem_nil applies
            have silent := ahead.1.trans (by rw [List.isEmpty_iff.mp finite])
            exact ⟨definition, inDocument, object, _, inner, collects, innerMember,
              beq_iff_eq.mp present,
              ahead.2.2 silent definition inDocument collects inner innerMember⟩

end SpreadByAnother

end GraphQL

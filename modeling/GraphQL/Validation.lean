import GraphQL.Parsing.Document
import GraphQL.Plan.Building
import GraphQL.Validation.Fields
import GraphQL.Validation.Fragments
import GraphQL.Validation.Merging
import GraphQL.Validation.Variables
import GraphQL.Validation.Walk

/-!
# Validation

A document is walked once. The rules look at the events of the walk, the document is planned, and
the depth of the plan is checked. A plan is given only for a document in which nothing was found. A
limit on the number of nodes ends a validation without a result.
-/

namespace GraphQL

inductive RuleKind where
  | fieldsOnCorrectType
  | leafFieldSelections
  | argumentsAreDefined
  | requiredArgumentsPresent
  | directivesAreDefined
  | fragmentsAreDefined
  | fragmentTypesExist
  | fragmentsAreUsed
  | fragmentsAreFinite
  | variablesAreDefined
  | fieldsWillMerge
  | queryDepth
  deriving DecidableEq, Repr

namespace RuleKind

/-- Every rule, in the order in which they look at an event. -/
def all : List RuleKind :=
  [fieldsOnCorrectType, leafFieldSelections, argumentsAreDefined, requiredArgumentsPresent,
    directivesAreDefined, fragmentsAreDefined, fragmentTypesExist, fragmentsAreUsed,
    fragmentsAreFinite, variablesAreDefined, fieldsWillMerge, queryDepth]

/-- What a rule does during the walk; the depth is known only after it. -/
def rule : RuleKind → Rule
  | fieldsOnCorrectType => .fieldsOnCorrectType
  | leafFieldSelections => .leafFieldSelections
  | argumentsAreDefined => .argumentsAreDefined
  | requiredArgumentsPresent => .requiredArgumentsPresent
  | directivesAreDefined => .directivesAreDefined
  | fragmentsAreDefined => .fragmentsAreDefined
  | fragmentTypesExist => .fragmentTypesExist
  | fragmentsAreUsed => .fragmentsAreUsed
  | fragmentsAreFinite => .fragmentsAreFinite
  | variablesAreDefined => .variablesAreDefined
  | fieldsWillMerge => .fieldsWillMerge
  | queryDepth => .ofEvent fun _ _ => []

end RuleKind

/-- Limits on documents. -/
structure ValidationLimits where
  maxNodes : Option Nat := none
  maxDepth : Option Nat := none
  deriving DecidableEq, Repr

/-- Operations are not nested deeper than a limit when their variables have their defaults. -/
def Plan.depthFindings (plan : Plan) (limit : Option Nat) : List Diagnostic :=
  match limit with
  | none => []
  | some limit =>
      plan.operations.values.flatMap fun operation =>
        let depth := operation.depth operation.defaultVariables
        if limit < depth then
          [Rule.finding .queryTooDeep
            ("Query has depth of " ++ toString depth ++ ", which exceeds max depth of "
              ++ toString limit)
            [operation.span]]
        else []

/-- What a rule finds in the plan. -/
def RuleKind.planFindings (kind : RuleKind) (limits : ValidationLimits) (plan : Plan) :
    List Diagnostic :=
  match kind with
  | queryDepth => plan.depthFindings limits.maxDepth
  | _ => []

/-- What was found, and the plan if nothing was. -/
structure ValidationResult where
  findings : List Diagnostic
  plan? : Option Plan

namespace ValidationResult

def isValid (result : ValidationResult) : Bool :=
  result.findings.isEmpty

def titles (result : ValidationResult) : List String :=
  result.findings.map (·.title)

end ValidationResult

/-- A schema with the rules and limits that documents have to keep. -/
structure Validator where
  schema : Schema
  rules : List RuleKind := RuleKind.all
  limits : ValidationLimits := {}

namespace Validator

/-- The validator without its rules; documents are still planned. -/
def withoutRules (validator : Validator) : Validator :=
  { validator with rules := [] }

/-- Validates a document; with the lines of its source, the plan says where its nodes are. -/
def validate (validator : Validator) (document : Document) (lines? : Option LineIndex := none) :
    Except NodeLimitExceeded ValidationResult :=
  let context : RuleContext := { schema := validator.schema, document }
  let watchers := validator.rules.map fun kind => Watcher.start kind.rule
  let events := Event.ofDocument validator.schema document
  match Watcher.walk context validator.limits.maxNodes 0 watchers [] events with
  | .error error => .error error
  | .ok walked =>
      let plan := Plan.ofDocument validator.schema document lines?
      let planned := validator.rules.flatMap fun kind => kind.planFindings validator.limits plan
      let findings := walked ++ planned
      .ok { findings, plan? := if findings.isEmpty then some plan else none }

/-- Parses and validates a source; errors of the source are findings. -/
def validateSource (validator : Validator) (source : String) :
    Except SliceFault (Except NodeLimitExceeded ValidationResult) :=
  match Document.parse source with
  | .error fault => .error fault
  | .ok parsed =>
      if parsed.hasErrors then .ok (.ok { findings := parsed.diagnostics, plan? := none })
      else .ok (validator.validate parsed.document (some (LineIndex.ofSource source)))

end Validator

end GraphQL

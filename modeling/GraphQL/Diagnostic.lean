import GraphQL.Source

/-!
# Diagnostics

What is wrong with a document, or doubtful about it, with a label for every place involved. The
findings of a run are a list in the order in which they were made.
-/

namespace GraphQL

inductive Severity where
  | error
  | warning
  deriving DecidableEq, Repr

/-- The kinds of findings. -/
inductive DiagnosticCode where
  | unexpectedToken
  | invalidSource
  | undefinedType
  | undefinedField
  | undefinedArgument
  | missingArgument
  | undefinedVariable
  | selectionMismatch
  | undefinedDirective
  | undefinedFragment
  | unusedFragment
  | fragmentCycle
  | fieldConflict
  | argumentConflict
  | queryTooDeep
  deriving DecidableEq, Repr

def DiagnosticCode.text : DiagnosticCode → String
  | unexpectedToken => "E0001"
  | invalidSource => "E0003"
  | undefinedType => "E0010"
  | undefinedField => "E0011"
  | undefinedArgument => "E0014"
  | missingArgument => "E0015"
  | undefinedVariable => "E0016"
  | selectionMismatch => "E0021"
  | undefinedDirective => "E0030"
  | undefinedFragment => "E0040"
  | unusedFragment => "E0041"
  | fragmentCycle => "E0042"
  | fieldConflict => "E0050"
  | argumentConflict => "E0051"
  | queryTooDeep => "E0060"

/-- A place in the source and what to say about it. -/
structure Label where
  span : Span
  text : String
  deriving DecidableEq, Repr

structure Diagnostic where
  severity : Severity
  code : DiagnosticCode
  title : String
  explanation : Option String := none
  labels : List Label := []
  deriving DecidableEq, Repr

namespace Diagnostic

def error (code : DiagnosticCode) (title : String) : Diagnostic :=
  { severity := .error, code, title }

def warning (code : DiagnosticCode) (title : String) : Diagnostic :=
  { severity := .warning, code, title }

def withExplanation (diagnostic : Diagnostic) (explanation : String) : Diagnostic :=
  { diagnostic with explanation := some explanation }

def withLabel (diagnostic : Diagnostic) (span : Span) (text : String) : Diagnostic :=
  { diagnostic with labels := diagnostic.labels ++ [⟨span, text⟩] }

/-- Adds a label without a text for every span. -/
def withSpans (diagnostic : Diagnostic) (spans : List Span) : Diagnostic :=
  { diagnostic with labels := diagnostic.labels ++ spans.map (⟨·, ""⟩) }

/-- The place that matters most: the first one. -/
def primarySpan? (diagnostic : Diagnostic) : Option Span :=
  diagnostic.labels.head?.map Label.span

def spans (diagnostic : Diagnostic) : List Span :=
  diagnostic.labels.map Label.span

def isError (diagnostic : Diagnostic) : Bool :=
  diagnostic.severity == .error

/-- The errors among the findings, in order. -/
def errors (diagnostics : List Diagnostic) : List Diagnostic :=
  diagnostics.filter isError

def anyError (diagnostics : List Diagnostic) : Bool :=
  diagnostics.any isError

end Diagnostic

end GraphQL

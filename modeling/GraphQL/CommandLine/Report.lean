import GraphQL.Validation

/-!
# Reports on files

What is said about a file whose document is not valid. Its findings are shown with the pieces of the
source that they are about, under the line and column at which a label starts.
-/

namespace GraphQL

namespace Diagnostic

/-- Every label starts in the source, or where the source ends. -/
def isPlacedIn (source : String) (diagnostic : Diagnostic) : Bool :=
  diagnostic.labels.all (·.span.start ≤ source.utf8ByteSize)

/-- The findings, if they can be shown. A label that starts behind the end of the source, as after a
string that ends with a backslash, has no line and column. -/
def shownIn (source : String) (findings : List Diagnostic) : Except SliceFault (List Diagnostic) :=
  if findings.all (isPlacedIn source) then .ok findings else .error .pastEnd

end Diagnostic

/-- The findings about a file, or the limit that ended its validation. -/
structure FileReport where
  path : String
  errors : Nat
  findings : List Diagnostic := []
  stopped : Option NodeLimitExceeded := none

namespace FileReport

/-- There is nothing to show. -/
def isEmpty (report : FileReport) : Bool :=
  report.findings.isEmpty && report.stopped.isNone

end FileReport

namespace Validator

/-- Validates a file and counts its errors. -/
def report (validator : Validator) (path source : String) : Except SliceFault FileReport := do
  match ← validator.validateSource source with
  | .ok result =>
      let findings ← Diagnostic.shownIn source result.findings
      return { path, errors := (Diagnostic.errors findings).length, findings }
  | .error limit => return { path, errors := 1, stopped := some limit }

/-- The plan of a file, or the report that says why it has none. -/
def planOrReport (validator : Validator) (path source : String) :
    Except SliceFault (Except FileReport Plan) := do
  match ← validator.validateSource source with
  | .ok { findings := [], plan? := some plan } => return .ok plan
  | .ok result =>
      let findings ← Diagnostic.shownIn source result.findings
      return .error { path, errors := max findings.length 1, findings }
  | .error limit => return .error { path, errors := 1, stopped := some limit }

end Validator

end GraphQL

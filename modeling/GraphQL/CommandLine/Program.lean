import GraphQL.CommandLine.Report
import GraphQL.CommandLine.Settings
import GraphQL.CommandLine.Usage
import GraphQL.Json.Printer
import GraphQL.Plan.Interchange
import GraphQL.Schema.Definition
import GraphQL.Schema.Printer

/-!
# The program

Documents are checked against a schema, planned, or executed on a JSON value; a schema is printed.
The program is a function of its arguments and of a way to read files, which may have effects. Files
are read when they are needed, and the first thing that goes wrong ends the program.
-/

namespace GraphQL
namespace CommandLine

/-- How the program ends: its exit code, what it writes, and the lines that report errors. -/
structure Outcome where
  code : Nat := 0
  output : String := ""
  errors : List String := []
  deriving DecidableEq, Repr

/-- The text of a file, or why there is none. -/
abbrev ReadFile (m : Type → Type) := String → m (Except String String)

def Outcome.failed (message : String) : Outcome :=
  { code := 1, errors := ["Error: " ++ message] }

/-- The end at a source that cannot be read, or whose findings cannot be shown. -/
def Outcome.broken : Outcome :=
  { code := 101 }

/-- A document is not valid, which is said elsewhere. -/
def Outcome.invalid : Outcome :=
  { code := 1 }

def versionLine : String :=
  "boxql 0.1.0\n"

def unlines (lines : List String) : String :=
  String.join (lines.map (· ++ "\n"))

/-- What is said about one checked file. -/
def reportLines (verbose : Bool) (report : FileReport) : List String :=
  if verbose then
    ["Checking " ++ report.path] ++ if report.errors = 0 then ["OK " ++ report.path] else []
  else []

def reportErrors (report : FileReport) : List String :=
  if report.errors = 0 then [] else [s!"Error {report.path} ({report.errors} error(s))"]

/-- What is said about the files that were checked. -/
def checkOutcome (verbose quiet : Bool) (reports : List FileReport) : Outcome :=
  let lines := reports.flatMap (reportLines verbose)
  match reports.flatMap reportErrors with
  | [] =>
      let success := if quiet then [] else [s!"Success: {reports.length} file(s) checked"]
      { output := unlines (lines ++ success) }
  | errors => { code := 1, output := unlines lines, errors }

/-- A host without code of its own. -/
def noHost : Host where
  Object := Empty
  kind := Empty.elim
  Work := Empty
  State := Unit

def noCode : HostCode noHost where
  answer := Empty.elim
  compute := Empty.elim
  load := Empty.elim

/-- The response to an operation whose fields are properties of a JSON value. -/
def respond (schema : Schema) (limits : ExecutionLimits) (plan : Plan) (operation : Option String)
    (bindings : Variables) (root : Json) : Response :=
  let executor : Executor noHost := { schema, code := noCode, limits }
  (executor.execute plan { operation, bindings, root := .ofJson root } { state := () }).1

def responseOutcome (response : Response) : Outcome :=
  { code := if response.hasErrors then 1 else 0, output := response.toJson.pretty ++ "\n" }

variable {m : Type → Type} [Monad m] (files : ReadFile m)

def readFile (path : String) : ExceptT Outcome m String := do
  match ← files path with
  | .ok text => return text
  | .error message => throw (.failed message)

def readJson (path : String) : ExceptT Outcome m Json := do
  let text ← readFile files path
  match Json.parse text with
  | .ok value => return value
  | .error error => throw (.failed (error.message text))

def readSettings : Option String → ExceptT Outcome m Settings
  | none => return {}
  | some path => do
      let text ← readFile files path
      match Settings.parse text with
      | .ok settings => return settings
      | .error error => throw (.failed (error.message text))

def readSchema (path : String) : ExceptT Outcome m Schema := do
  let source ← readFile files path
  match Schema.ofSource source with
  | .ok schema => return schema
  | .error (.unreadable _) => throw .broken
  | .error (.invalidSource findings) =>
      match Diagnostic.shownIn source findings with
      | .ok _ => throw (.failed (path ++ " is not valid SDL"))
      | .error _ => throw .broken
  | .error error => throw (.failed error.message)

/-- The values of the variables, which have to be the fields of an object. -/
def readVariables : Option String → ExceptT Outcome m Variables
  | none => return []
  | some path => do
      match ← readJson files path with
      | .object fields => return fields
      | _ => throw (.failed "variables must be a JSON object")

def checkFile (validator : Validator) (path : String) : ExceptT Outcome m FileReport := do
  match validator.report path (← readFile files path) with
  | .ok report => return report
  | .error _ => throw .broken

def readPlan (validator : Validator) (path : String) : ExceptT Outcome m Plan := do
  match validator.planOrReport path (← readFile files path) with
  | .ok (.ok plan) => return plan
  | .ok (.error _) => throw .invalid
  | .error _ => throw .broken

/-- Does what a command says. -/
def runCommand (invocation : Invocation) (settings : Settings) : ExceptT Outcome m Outcome := do
  let validator (schema : Schema) : Validator := { schema, limits := settings.validation }
  match invocation.command with
  | .check schemaPath paths =>
      let schema ← readSchema files schemaPath
      let reports ← paths.mapM (checkFile files (validator schema))
      return checkOutcome invocation.verbose invocation.quiet reports
  | .printPlan schemaPath path =>
      let schema ← readSchema files schemaPath
      let plan ← readPlan files (validator schema) path
      return { output := plan.toJson.pretty ++ "\n" }
  | .execute schemaPath queryPath rootPath variablesPath operation =>
      let schema ← readSchema files schemaPath
      let plan ← readPlan files (validator schema) queryPath
      let root ←
        match rootPath with
        | some path => readJson files path
        | none => pure (.object [])
      let bindings ← readVariables files variablesPath
      return responseOutcome (respond schema settings.execution plan operation bindings root)
  | .printSchema path =>
      match (← readSchema files path).print with
      | .ok text => return { output := text }
      | .error error => throw (.failed error.message)
  | .showVersion => return { output := versionLine }

/-- Runs the program. -/
def run (arguments : List String) : m Outcome :=
  match usage arguments with
  | .wrong => return { code := 2 }
  | .help => return {}
  | .version => return { output := versionLine }
  | .run invocation => do
      let program : ExceptT Outcome m Outcome := do
        runCommand files invocation (← readSettings files invocation.settings)
      match ← program.run with
      | .ok outcome => return outcome
      | .error outcome => return outcome

end CommandLine
end GraphQL

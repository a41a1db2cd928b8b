import GraphQL.Diagnostic
import GraphQL.Validation.Event

/-!
# Rules

A rule watches the events of a walk. It may remember something between events, and for every event
it gives what it finds.
-/

namespace GraphQL

/-- What rules can look up. -/
structure RuleContext where
  schema : Schema
  document : Document

namespace RuleContext

def type? (context : RuleContext) (name : String) : Option SchemaType :=
  context.schema.type? name

def fragment? (context : RuleContext) (name : String) : Option FragmentDefinition :=
  context.document.fragment? name

end RuleContext

/-- A watcher of events with a memory of its own. -/
structure Rule where
  Memory : Type
  initial : Memory
  watch : RuleContext → Memory → Event → Memory × List Diagnostic

namespace Rule

/-- A rule that remembers nothing. -/
def ofEvent (find : RuleContext → Event → List Diagnostic) : Rule where
  Memory := Unit
  initial := ()
  watch context _ event := ((), find context event)

/-- The findings at every event, after some events have been seen. -/
def findingsFrom (rule : Rule) (context : RuleContext) :
    rule.Memory → List Event → List (List Diagnostic)
  | _, [] => []
  | memory, event :: rest =>
      let (next, found) := rule.watch context memory event
      found :: findingsFrom rule context next rest

/-- The findings of a rule at every event of a walk. -/
def findings (rule : Rule) (context : RuleContext) (events : List Event) :
    List (List Diagnostic) :=
  rule.findingsFrom context rule.initial events

/-- An error at some places. -/
def finding (code : DiagnosticCode) (title : String) (spans : List Span) : Diagnostic :=
  (Diagnostic.error code title).withSpans spans

end Rule

end GraphQL

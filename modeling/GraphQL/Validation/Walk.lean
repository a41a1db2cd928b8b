import GraphQL.Validation.Rule

/-!
# Walks

A walk goes through the events of a document once. At every event all rules look in turn, and what a
rule finds is put behind all that was found before, whoever found it. The nodes are counted as they
are met; a walk that meets more of them than a limit allows ends there.
-/

namespace GraphQL

/-- A rule on its way through a document. -/
structure Watcher where
  rule : Rule
  memory : rule.Memory

/-- A rule before the first event. -/
def Watcher.start (rule : Rule) : Watcher :=
  ⟨rule, rule.initial⟩

/-- The document has more nodes than the limit. -/
structure NodeLimitExceeded where
  limit : Nat
  deriving DecidableEq, Repr

def NodeLimitExceeded.message (error : NodeLimitExceeded) : String :=
  "validation visited more than " ++ toString error.limit ++ " nodes"

namespace Watcher

/-- All watchers look at an event in turn and add what they find to the findings of all. -/
def look (context : RuleContext) (event : Event) :
    List Watcher → List Diagnostic → List Watcher × List Diagnostic
  | [], findings => ([], findings)
  | ⟨rule, memory⟩ :: others, findings =>
      let (next, found) := rule.watch context memory event
      let (watchers, all) := look context event others (findings ++ found)
      (⟨rule, next⟩ :: watchers, all)

/-- What has been found at the end of some events, after some nodes have been met. -/
def walk (context : RuleContext) (limit? : Option Nat) (nodes : Nat) (watchers : List Watcher)
    (findings : List Diagnostic) : List Event → Except NodeLimitExceeded (List Diagnostic)
  | [] => .ok findings
  | event :: rest =>
      let met := if event.isNode then nodes + 1 else nodes
      match limit?.filter (· < met) with
      | some limit => .error ⟨limit⟩
      | none =>
          let (next, found) := look context event watchers findings
          walk context limit? met next found rest

end Watcher

end GraphQL

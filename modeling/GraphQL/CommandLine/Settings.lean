import GraphQL.Execution.Executor
import GraphQL.Json.Records
import GraphQL.Validation

/-!
# Settings

The limits that a settings file can set, in a section for validation and one for execution.
-/

namespace GraphQL

structure Settings where
  validation : ValidationLimits := {}
  execution : ExecutionLimits := {}

namespace Settings

open Json.Reader

def readValidation : Json.Reader ValidationLimits :=
  record "struct ValidatorConfig"
    [("max_nodes", fun limits => return { limits with maxNodes := ← size? }),
      ("max_depth", fun limits => return { limits with maxDepth := ← size? })] {}

def readExecution : Json.Reader ExecutionLimits :=
  record "struct ExecutorConfig"
    [("max_lazy_depth", fun limits => return { limits with maxLazyDepth := ← size }),
      ("max_depth", fun limits => return { limits with maxDepth := ← size? })] {}

def read : Json.Reader Settings :=
  record "struct Config"
    [("validation", fun settings => return { settings with validation := ← readValidation }),
      ("execution", fun settings => return { settings with execution := ← readExecution })] {}

/-- Reads the text of a settings file. -/
def parse (text : String) : Except Json.ReadError Settings :=
  run read text

end Settings

end GraphQL

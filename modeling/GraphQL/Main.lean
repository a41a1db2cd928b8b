import GraphQL.CommandLine.Program

/-!
# Entry point
-/

namespace GraphQL
namespace CommandLine

/-- The text of a file on disk. -/
def readTextFile (path : String) : IO (Except String String) := do
  try
    return .ok (← IO.FS.readFile path)
  catch error =>
    match error with
    | .noFileOrDirectory _ _ _ => return .error "No such file or directory (os error 2)"
    | other => return .error other.toString

end CommandLine
end GraphQL

def main (arguments : List String) : IO UInt32 := do
  let outcome ← GraphQL.CommandLine.run GraphQL.CommandLine.readTextFile arguments
  IO.print outcome.output
  for line in outcome.errors do
    IO.eprintln line
  return outcome.code.toUInt32

import ModuleGraph.CommandLine.Outcome
import ModuleGraph.FileSystem.Snapshot
import ModuleGraph.Json.Reader

/-! # The program

The program works in a directory of which it reads a snapshot from standard input: a JSON object
whose `files` lists the files. Its arguments are a command and a path. -/

open ModuleGraph ModuleGraph.CommandLine ModuleGraph.FileSystem

/-- The account of the usage. -/
def usageLine : String := "Usage: module-graph [-v] <parse|link|exports|eval> <PATH>"

def printLines (out : IO.FS.Stream) (lines : List String) : IO Unit := lines.forM out.putStrLn

def main (args : List String) : IO UInt32 := do
  let output ← IO.getStdout
  let errors ← IO.getStderr
  match Invocation.ofArguments? args with
  | none =>
    errors.putStrLn usageLine
    pure Outcome.misuse.status.toUInt32
  | some i =>
    let text ← (← IO.getStdin).readToEnd
    match Json.read? text with
    | none =>
      errors.putStrLn "error: standard input is not JSON"
      pure 1
    | some j =>
      match i.run (Tree.ofSnapshot [] (j.list "files")) [] with
      | none =>
        errors.putStrLn "error: the modules are nested too deeply"
        pure 1
      | some outcome =>
        printLines output outcome.output
        printLines errors outcome.errors
        pure outcome.status.toUInt32

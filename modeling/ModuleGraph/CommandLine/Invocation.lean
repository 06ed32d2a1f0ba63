/-! # Invocations

The arguments of the program are a command and the path of a module. The only option asks for a
log; it may stand on either side of the command, once on each. After a double dash nothing is an
option. -/

namespace ModuleGraph.CommandLine

inductive Command where
  /-- Shows the imports and exports of one module. -/
  | parse
  /-- Loads and links a module with everything it requests. -/
  | link
  /-- Shows where the exports of a linked module come from. -/
  | exports
  /-- Evaluates a linked module in a dry run. -/
  | evaluate
  deriving DecidableEq, Repr

def Command.ofName? : String → Option Command
  | "parse" => some .parse
  | "link" => some .link
  | "exports" => some .exports
  | "eval" => some .evaluate
  | _ => none

structure Invocation where
  command : Command
  path : String
  /-- Whether a log is asked for. It is no part of what the program prints. -/
  verbose : Bool
  deriving DecidableEq, Repr

def isVerbose (arg : String) : Bool := arg = "-v" || arg = "--verbose"

/-- Whether an argument has the form of an option. A single dash is a value. -/
def isOption (arg : String) : Bool := arg.startsWith "-" && arg ≠ "-"

/-- The values among the arguments of a command, and how often a log is asked for. -/
def values? : List String → Option (List String × Nat)
  | [] => some ([], 0)
  | "--" :: rest => some (rest, 0)
  | arg :: rest =>
    match values? rest with
    | none => none
    | some (values, logs) =>
      if isVerbose arg then some (values, logs + 1)
      else if isOption arg then none
      else some (arg :: values, logs)

/-- The invocation that the arguments mean. -/
def Invocation.ofArguments? (args : List String) : Option Invocation :=
  let before := (args.takeWhile isVerbose).length
  match args.dropWhile isVerbose with
  | [] => none
  | name :: rest =>
    match Command.ofName? name, values? rest with
    | some command, some ([path], logs) =>
      if before ≤ 1 && logs ≤ 1 && path ≠ "" then some ⟨command, path, 0 < before + logs⟩ else none
    | _, _ => none

end ModuleGraph.CommandLine

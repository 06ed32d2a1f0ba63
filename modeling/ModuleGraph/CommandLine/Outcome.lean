import ModuleGraph.CommandLine.Invocation
import ModuleGraph.CommandLine.Report

/-! # Outcomes

What an invocation prints and the status it ends with. Text that is not a module is only marked as
such; what is wrong with it is for the parser to say. -/

namespace ModuleGraph.CommandLine

open FileSystem

structure Outcome where
  /-- The exit status. -/
  status : Nat
  output : List String
  errors : List String
  deriving DecidableEq, Repr, Inhabited

namespace Outcome

def success (output : List String) : Outcome := ⟨0, output, []⟩

def failure (output errors : List String) : Outcome := ⟨1, output, errors⟩

/-- The outcome where the arguments are no invocation, apart from an account of the usage. -/
def misuse : Outcome := ⟨2, [], []⟩

end Outcome

/-- A text without a carriage return at its end. -/
def dropReturn (text : String) : String :=
  if text.endsWith "\r" then (text.dropEnd 1).copy else text

/-- The lines that appear where texts are printed one below the other. A carriage return in front
of the end of a line belongs to the end. -/
def printedLines (texts : List String) : List String :=
  texts.flatMap fun text => (text.splitOn "\n").map dropReturn

/-- The mark of a text that is not a module. -/
def malformedLine : String := "SyntaxError:"

def parse (t : Tree) (current : Place) (path : String) : Outcome :=
  match t.readPath current path with
  | .error e => .failure [] ["error: " ++ path ++ ": " ++ e.message]
  | .ok (source, program) =>
    match SourceRecord.ofText source program with
    | .error _ => .failure [] [malformedLine]
    | .ok r => .success (recordLines r)

abbrev Errand := Run Workspace ModuleId

variable (host : Host Workspace ModuleId)

/-- Why there is no linked entry module. -/
inductive LoadFault where
  /-- The entry module cannot be loaded. -/
  | entry (thrown : Value)
  | link (error : LinkError)

/-- Loads the module at a path and links it with everything it requests. -/
def loadAndLink (path : String) : Errand (Except LoadFault ModuleId) := do
  match ← (loadEntry path).outcome with
  | .error thrown => pure (.error (.entry thrown))
  | .ok m =>
    match ← host.link m with
    | .error e => pure (.error (.link e))
    | .ok () => pure (.ok m)

/-- The files that are not modules, and then what went wrong. -/
def faultLines (s : Desk) (fault : LoadFault) : List String :=
  s.host.refused.map (fun _ => malformedLine) ++
    match fault with
    | .entry thrown => [uncaughtLine s thrown]
    | .link e => linkErrorLines s e

def showModules (entry : ModuleId) : Errand Outcome :=
  Run.view fun s => .success (s.host.loaded.flatMap fun e => moduleLines s entry e.2)

/-- The origins of names, as far as they can be told, and what was thrown then. -/
def traceOrigins (entry : ModuleId) : List String → Errand (List String × Option Value)
  | [] => pure ([], none)
  | name :: rest => do
    match ← (host.resolution entry name).outcome with
    | .error thrown => pure ([], some thrown)
    | .ok origin =>
      let line ← Run.view fun s => originLine s name origin
      let (lines, thrown) ← traceOrigins entry rest
      pure (line :: lines, thrown)

/-- Shows where each key of the namespace of a module comes from. -/
def showExports (entry : ModuleId) : Errand Outcome := do
  match ← (host.namespaceKeys entry).outcome with
  | .error thrown => Run.view fun s => .failure [] [uncaughtLine s thrown]
  | .ok keys =>
    match ← traceOrigins host entry keys with
    | (lines, some thrown) => Run.view fun s => .failure lines [uncaughtLine s thrown]
    | (lines, none) => pure (.success lines)

/-- What an evaluation with this promise has come to. -/
def evaluationOutcome (p : PromiseId) (s : Desk) : Outcome :=
  let lines := eventLines s 0 s.host.events ++ [summaryLine s p]
  match (s.promise p).settlement? with
  | some (.fulfilled _) => .success lines
  | some (.rejected thrown) => .failure lines [uncaughtLine s thrown]
  | none => .failure lines ["error: the entry module never finished evaluating"]

/-- Evaluates a module and runs all jobs. -/
def showEvaluation (entry : ModuleId) : Errand Outcome := do
  let p ← host.evaluate entry
  match ← host.runJobs.outcome with
  | .error thrown =>
    Run.view fun s => .failure (eventLines s 0 s.host.events) [uncaughtLine s thrown]
  | .ok () => Run.view (evaluationOutcome p)

def perform (command : Command) (path : String) : Errand Outcome := do
  match ← loadAndLink host path with
  | .error fault => Run.view fun s => .failure [] (faultLines s fault)
  | .ok entry =>
    match command with
    | .parse => Run.view fun s => parse s.host.tree s.host.current path
    | .link => showModules entry
    | .exports => showExports host entry
    | .evaluate => showEvaluation host entry

/-- The outcome of an invocation in a directory of a tree. -/
def Invocation.run (t : Tree) (current : Place) (i : Invocation) : Option Outcome :=
  if i.command = .parse then some (parse t current i.path)
  else
    ((perform (dryHost (t.depth 0)) i.command i.path).run (.initial (.initial t current))).map (·.1)

end ModuleGraph.CommandLine

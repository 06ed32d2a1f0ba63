import ModuleGraph.FileSystem.DryRun

/-! # Reports

What the program tells people about records, modules, errors and dry runs, line by line. -/

namespace ModuleGraph.CommandLine

open FileSystem

def quoted (text : String) : String := "'" ++ text ++ "'"

def importLine (i : ImportEntry) : String :=
  "  " ++ i.importName.getD "*" ++ " as " ++ i.localName ++ " from " ++ quoted i.request

def localExportLine (e : LocalExport) : String := "  " ++ e.localName ++ " as " ++ e.exportName

def indirectExportLine (e : IndirectExport) : String :=
  "  " ++ e.importName.getD "*" ++ " as " ++ e.exportName ++ " from " ++ quoted e.request

def recordLines (r : SourceRecord) : List String :=
  "requested modules" :: r.requested.map (fun request => "  " ++ quoted request) ++
  "imports" :: r.imports.map importLine ++
  "exports" :: r.localExports.map localExportLine ++ r.indirectExports.map indirectExportLine ++
  r.starExports.map (fun request => "  * from " ++ quoted request) ++
  if r.hasAwait then ["uses top-level await"] else []

def moduleName (s : Desk) (m : ModuleId) : String :=
  match s.host.loaded.find? fun e => e.2 == m with
  | some (p, _) => p.shown s.host.current
  | none => ""

/-- The state and the requests of a module; the entry module is marked. -/
def moduleLines (s : Desk) (entry m : ModuleId) : List String :=
  ((if m = entry then "* " else "  ") ++ moduleName s m ++ " [" ++ (s.status m).name ++ "]") ::
    (s.requested m).map fun request => "    -> " ++ quoted request

/-- Where an exported name comes from. -/
def originLine (s : Desk) (name : String) (origin : Option Resolution) : String :=
  "  " ++ name ++ " <- " ++
    match origin with
    | some (.found m (.name binding)) => moduleName s m ++ " " ++ binding
    | some (.found m .namespace) => moduleName s m ++ " namespace"
    | some .ambiguous => "ambiguous"
    | none => "unresolvable"

/-- A number with blanks in front, three characters wide or more. -/
def padded (n : Nat) : String := "".pushn ' ' (3 - (toString n).length) ++ toString n

/-- The course of a dry run; bodies are numbered in the order in which they start. -/
def eventLines (s : Desk) : Nat → List BodyEvent → List String
  | _, [] => []
  | n, .started m :: rest =>
    (padded (n + 1) ++ ". evaluate " ++ moduleName s m ++
      if s.hasAwait m then " (awaiting)" else "") :: eventLines s (n + 1) rest
  | n, .resumed m :: rest => ("     resume " ++ moduleName s m) :: eventLines s n rest

def startedCount (events : List BodyEvent) : Nat :=
  events.countP fun
    | .started _ => true
    | .resumed _ => false

def summaryLine (s : Desk) (p : PromiseId) : String :=
  toString (startedCount s.host.events) ++ " modules evaluated, entry " ++ s.describePromise p

def uncaughtLine (s : Desk) (thrown : Value) : String :=
  "Uncaught exception: " ++ s.describe thrown

/-- A link error, the requests that lead to it, each further to the right, and its cause. -/
def linkErrorLines (s : Desk) (e : LinkError) : List String :=
  ("LinkError: " ++ e.message) ::
    e.path.mapIdx (fun depth request => "".pushn ' ' (2 * depth + 2) ++ "-> " ++ request) ++
    match e.fault.thrown? with
    | some thrown => ["  caused by " ++ s.describe thrown]
    | none => []

end ModuleGraph.CommandLine

import ModuleGraph.FileSystem.Loader

/-! # Importing from a script

A script in a directory imports modules dynamically, and then all jobs run. The report says how
each import went, which rejections nobody handled, and which files were loaded. -/

namespace ModuleGraph.FileSystem

structure LoadedModule where
  path : String
  status : Status
  /-- The address in `import.meta`. -/
  url : Value
  deriving DecidableEq, Repr

structure ImportReport where
  /-- The states of the import promises before the jobs and after them. -/
  before : List String
  results : List String
  /-- Whether no job threw. -/
  drained : Bool
  /-- The rejections that nobody handled, each as the position of its import. -/
  unhandled : List (Option Nat)
  /-- How many of them are left once someone waits for every import. -/
  remaining : Nat
  loaded : List LoadedModule
  /-- The files that are not modules. -/
  refused : List String
  deriving DecidableEq, Repr

def reportModule (host : Host Workspace ModuleId) (e : Place × ModuleId) :
    Run Workspace ModuleId LoadedModule := do
  let status ← Run.view fun s => s.status e.2
  let o ← host.importMeta e.2
  let url ← Run.view fun s => Properties.get (s.object o) "url"
  pure ⟨e.1.text, status, url⟩

/-- Imports each specifier from a script with this path, and runs all jobs. -/
def importFrom (host : Host Workspace ModuleId) (path : String) (specifiers : List String) :
    Run Workspace ModuleId ImportReport := do
  let script ← Run.make fun s => s.newScript (some path)
  let promises ← specifiers.mapM fun specifier =>
    host.importCall (.script script) (.string specifier)
  let before ← Run.view fun s => promises.map s.describePromise
  let outcome ← host.runJobs.outcome
  let results ← Run.view fun s => promises.map s.describePromise
  let unhandled ← Run.view (·.unhandled)
  Run.update fun s =>
    promises.foldl (fun s p => s.attach host.track p ⟨.passOn, none⟩) s
  let remaining ← Run.view (·.unhandled.length)
  let loaded ← (← Run.view (·.host.loaded)).mapM (reportModule host)
  let refused ← Run.view (·.host.refused)
  pure
    { before, results
      drained := match outcome with
        | .ok () => true
        | .error _ => false
      unhandled := unhandled.map promises.idxOf?
      remaining, loaded
      refused := refused.map Place.text }

def runImports (t : Tree) (current : Place) (path : String) (specifiers : List String) :
    Option ImportReport :=
  ((importFrom (fileHost (t.depth specifiers.length)) path specifiers).run
    (.initial (.initial t current))).map (·.1)

end ModuleGraph.FileSystem

import ModuleGraph.Evaluation.Jobs
import ModuleGraph.FileSystem.Tree

/-! # Modules from files

A specifier means the file at its path; a file is loaded once, whatever paths lead to it. The
module is labelled with the path of its file. The bodies of modules do nothing here. -/

namespace ModuleGraph.FileSystem

inductive BodyEvent where
  | started (module : ModuleId)
  | resumed (module : ModuleId)
  deriving DecidableEq, Repr

/-- What the host of files knows. -/
structure Workspace where
  tree : Tree
  current : Place
  /-- The modules and the places of their files, in the order of loading. -/
  loaded : Table Place ModuleId
  /-- The files that turned out not to be modules, once for each attempt. -/
  refused : List Place
  /-- What happened to bodies, in order. -/
  events : List BodyEvent

def Workspace.initial (tree : Tree) (current : Place) : Workspace := ⟨tree, current, [], [], []⟩

/-- The machine of a host of files. A body that waits is named by its module. -/
abbrev Desk := Machine Workspace ModuleId

abbrev Loading := Act Workspace ModuleId

def note (f : Workspace → Workspace) : Loading Unit := .update fun s => s.setHost (f s.host)

/-- Loads the file at a place, unless it was loaded. -/
def loadFile (p : Place) : Loading ModuleId := do
  let w ← Act.view (·.host)
  match w.loaded.get? p with
  | some m => pure m
  | none =>
    match w.tree.read p with
    | .error e =>
      .fail .typeError ("Cannot read module '" ++ p.shown w.current ++ "': " ++ e.message)
    | .ok (source, program) =>
      match SourceRecord.ofText source program with
      | .ok record =>
        let m ← Act.make fun s => s.newSource record (some p.text)
        note fun w => { w with loaded := w.loaded.put p m }
        pure m
      | .error _ =>
        note fun w => { w with refused := w.refused ++ [p] }
        .fail .syntaxError ("Failed to parse module '" ++ p.shown w.current ++ "'")

def pathOf (s : Desk) : Referrer → Option String
  | .module m => (s.module m).label
  | .script i => s.script i

/-- Loads the file that a specifier means. -/
def loadSpecifier (referrer : Referrer) (specifier : String) : Loading ModuleId := do
  let w ← Act.view (·.host)
  let path ← Act.view fun s => pathOf s referrer
  match resolveSpecifier w.current.text path specifier with
  | none => .fail .typeError ("Cannot resolve bare specifier '" ++ specifier ++ "'")
  | some path =>
    match w.tree.locate w.current path with
    | .ok p => loadFile p
    | .error _ => .fail .typeError ("Cannot find module '" ++ specifier ++ "'")

/-- The parts of the path of an entry module. Parts that name nothing are left out, but a slash at
the end still asks for a directory. -/
def entryParts (path : String) : List String :=
  (parts path).filter (!isIdle ·) ++ if path.endsWith "/" then [""] else []

def loadEntry (path : String) : Loading ModuleId := do
  let w ← Act.view (·.host)
  match w.tree.walk (Tree.start w.current path) (entryParts path) with
  | .ok p => loadFile p
  | .error e => .fail .typeError ("Cannot find module '" ++ path ++ "': " ++ e.message)

/-- The properties of `import.meta`: the address of the file. -/
def metaOf (s : Desk) (m : ModuleId) : List (String × Value) :=
  match (s.module m).label with
  | some path => [("url", .string ("file://" ++ path))]
  | none => []

/-- The host of files; all bodies are empty. -/
def fileHost (depth : Nat) : Host Workspace ModuleId :=
  { Host.bare depth with
    resolve := loadSpecifier
    metaProperties := fun m => Run.view fun s => metaOf s m }

/-- How many names the module in a file takes from other modules to export them. -/
def Node.reexports : Node → Nat
  | .file (.text _ (some program)) => (program.exports.filterMap ExportEntry.indirect?).length
  | .file _ | .directory => 0

/-- A depth that no work on the modules of a tree reaches, nor the number of jobs of some dynamic
imports and one evaluation. A visit meets each module, or each module with an exported name, once
on its way down. A module and an import queue at most two jobs each. -/
def Tree.depth (t : Tree) (imports : Nat) : Nat :=
  (t.length + imports + 1) * (t.foldl (fun n e => n + e.2.reexports) 0 + 2)

end ModuleGraph.FileSystem

import ModuleGraph.FileSystem.Loader

/-! # Dry runs

A dry run notes when each body would run, without running it. Functions hold `undefined` before
any body runs, and the other declarations of a module once its body has run. A module with
top-level await waits once, for a promise that is already fulfilled. -/

namespace ModuleGraph.FileSystem

/-- The lexical declarations of a module that are functions, or those that are not. -/
def declaredNames (functions : Bool) (s : Desk) (m : ModuleId) : List String :=
  (((s.record? m).map (·.lexical)).getD []).filterMap fun (name, kind) =>
    if (kind == Syntax.LexicalKind.function) = functions then some name else none

def prepareDry (m : ModuleId) : Loading Unit := do
  (← Act.view fun s => declaredNames true s m).forM fun name => initializeBinding m name .undefined

def fillDeclarations (depth : Nat) (m : ModuleId) : Loading Unit := do
  (← Act.view fun s => declaredNames false s m).forM fun name => do
    match ← Act.ofRun ((fileHost depth).getBinding m name).outcome with
    | .ok _ => pure ()
    | .error _ => initializeBinding m name .undefined

def noteBody (e : BodyEvent) : Loading Unit := note fun w => { w with events := w.events ++ [e] }

def finishDry (depth : Nat) (m : ModuleId) : Loading (Execution ModuleId) := do
  fillDeclarations depth m
  pure .completed

def executeDry (depth : Nat) (m : ModuleId) : Loading (Execution ModuleId) := do
  noteBody (.started m)
  if ← Act.view fun s => s.hasAwait m then
    let p ← Act.make fun s => s.newFulfilled .undefined
    pure (.waiting p m)
  else finishDry depth m

def resumeDry (depth : Nat) (m : ModuleId) (settlement : Settlement) :
    Loading (Execution ModuleId) := do
  match settlement with
  | .rejected e => throw e
  | .fulfilled _ =>
    noteBody (.resumed m)
    finishDry depth m

/-- The host of files whose bodies are dry runs. -/
def dryHost (depth : Nat) : Host Workspace ModuleId :=
  { fileHost depth with
    prepare := prepareDry
    execute := executeDry depth
    resume := resumeDry depth }

end ModuleGraph.FileSystem

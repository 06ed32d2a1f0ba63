import ModuleGraph.Promise.Join

/-! # Hosts

A host finds modules, runs the bodies of modules and provides the modules that are not source
text. Each of its operations works on the whole machine and may throw a value. A computation that
visits modules has a bound on its depth; one that would go deeper has no result. -/

namespace ModuleGraph

/-- Work on the machine that cannot throw; no result means that the depth was used up. -/
abbrev Run (σ κ : Type) := StateT (Machine σ κ) Option

/-- Work on the machine that may throw a value. -/
abbrev Act (σ κ : Type) := ExceptT Value (Run σ κ)

namespace Run

variable {σ κ α : Type}

def exhausted : Run σ κ α := fun _ => none

def update (f : Machine σ κ → Machine σ κ) : Run σ κ Unit := modify f

def make (f : Machine σ κ → α × Machine σ κ) : Run σ κ α := fun s => some (f s)

def view (f : Machine σ κ → α) : Run σ κ α := fun s => some (f s, s)

end Run

namespace Act

variable {σ κ α : Type}

def ofRun (r : Run σ κ α) : Act σ κ α := ExceptT.lift r

def update (f : Machine σ κ → Machine σ κ) : Act σ κ Unit := ofRun (Run.update f)

def make (f : Machine σ κ → α × Machine σ κ) : Act σ κ α := ofRun (Run.make f)

def view (f : Machine σ κ → α) : Act σ κ α := ofRun (Run.view f)

def fail (kind : ErrorKind) (message : String) : Act σ κ α := do
  let e ← make fun s => s.newError kind message
  throw e

/-- What an action returned or threw. -/
def outcome (a : Act σ κ α) : Run σ κ (Except Value α) := a.run

/-- Returns or throws again what another action did. -/
def ofExcept : Except Value α → Act σ κ α
  | .ok v => pure v
  | .error e => throw e

end Act

/-- The end of a run of a body: it is complete, or it waits for a promise. -/
inductive Execution (κ : Type) where
  | completed
  | waiting (promise : PromiseId) (code : κ)
  deriving Repr, Inhabited

/-- What an exported name of a module is bound to. -/
inductive BindingName where
  | name (name : String)
  /-- The namespace object of the module. -/
  | namespace
  deriving DecidableEq, Repr, Inhabited

/-- The module and the binding behind an exported name. -/
inductive Resolution where
  | found (module : ModuleId) (binding : BindingName)
  /-- Two `export *` items give different bindings. -/
  | ambiguous
  deriving DecidableEq, Repr, Inhabited

/-- The pairs of a module and an exported name that one resolution has visited. -/
abbrev Visited := List (ModuleId × String)

/-- The simplest way for a module to provide names: each by a binding of the same name. -/
def ownResolution (names : List String) (m : ModuleId) (name : String) : Option Resolution :=
  if names.contains name then some (.found m (.name name)) else none

structure Host (σ κ : Type) where
  /-- A bound on the depth of each visit of modules. -/
  depth : Nat
  /-- The module that a specifier means to a referrer. -/
  resolve : Referrer → String → Act σ κ ModuleId
  /-- Called when the environment of a source text module is complete. -/
  prepare : ModuleId → Act σ κ Unit
  /-- Runs the body of a source text module. -/
  execute : ModuleId → Act σ κ (Execution κ)
  /-- Goes on with a body that waited. -/
  resume : κ → Settlement → Act σ κ (Execution κ)
  /-- Calls a callback with the settlement of a promise. -/
  call : κ → Settlement → Act σ κ Value
  linkLeaf : ModuleId → Act σ κ Unit
  evaluateLeaf : ModuleId → Act σ κ Unit
  initializeForeign : ModuleId → Act σ κ Unit
  /-- Makes the runnable instance of a foreign module and tells whether it has top-level await. -/
  instantiateForeign : ModuleId → Act σ κ Bool
  /-- Runs the body of a foreign module. -/
  executeForeign : ModuleId → Act σ κ (Execution κ)
  /-- The names that a module of the host exports. -/
  exportedNames : ModuleId → Run σ κ (List String)
  /-- Resolves an exported name of a module of the host. -/
  resolveExport : ModuleId → String → Visited → Act σ κ (Option Resolution × Visited)
  /-- The value of a binding of a module of the host. -/
  bindingValue : ModuleId → String → Act σ κ Value
  /-- Told of a new dynamic import; it has to be finished at some time. -/
  importRequested : Referrer → String → TicketId → Run σ κ Unit
  /-- The properties that `import.meta` of a module starts with. -/
  metaProperties : ModuleId → Run σ κ (List (String × Value))
  /-- Completes a new `import.meta` object. -/
  finishMeta : ObjectId → ModuleId → Run σ κ Unit
  track : Tracker σ

/-- Queues a job that resolves the specifier and finishes the import. -/
def queueImport {σ κ : Type} (referrer : Referrer) (specifier : String) (ticket : TicketId) :
    Run σ κ Unit :=
  Run.update fun s => s.enqueue (.finishImport referrer specifier ticket)

namespace Host

variable {σ κ : Type}

/-- A host without modules: nothing resolves, and all bodies are empty. -/
def bare (depth : Nat) : Host σ κ :=
  { depth
    resolve := fun _ specifier => .fail .typeError ("Cannot find module '" ++ specifier ++ "'")
    prepare := fun _ => pure ()
    execute := fun _ => pure .completed
    resume := fun _ _ => pure .completed
    call := fun _ settlement => .ofExcept settlement.toExcept
    linkLeaf := fun _ => pure ()
    evaluateLeaf := fun _ => pure ()
    initializeForeign := fun _ => pure ()
    instantiateForeign := fun _ => pure false
    executeForeign := fun _ => pure .completed
    exportedNames := fun _ => pure []
    resolveExport := fun _ _ visited => pure (none, visited)
    bindingValue := fun _ _ => pure .undefined
    importRequested := queueImport
    metaProperties := fun _ => pure []
    finishMeta := fun _ _ => pure ()
    track := fun _ _ host => host }

/-- A host that has no depth left: none of its operations has a result. -/
def spent : Host σ κ :=
  { depth := 0
    resolve := fun _ _ => .ofRun .exhausted
    prepare := fun _ => .ofRun .exhausted
    execute := fun _ => .ofRun .exhausted
    resume := fun _ _ => .ofRun .exhausted
    call := fun _ _ => .ofRun .exhausted
    linkLeaf := fun _ => .ofRun .exhausted
    evaluateLeaf := fun _ => .ofRun .exhausted
    initializeForeign := fun _ => .ofRun .exhausted
    instantiateForeign := fun _ => .ofRun .exhausted
    executeForeign := fun _ => .ofRun .exhausted
    exportedNames := fun _ => .exhausted
    resolveExport := fun _ _ _ => .ofRun .exhausted
    bindingValue := fun _ _ => .ofRun .exhausted
    importRequested := fun _ _ _ => .exhausted
    metaProperties := fun _ => .exhausted
    finishMeta := fun _ _ => .exhausted
    track := fun _ _ host => host }

end Host

end ModuleGraph

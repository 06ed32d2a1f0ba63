import ModuleGraph.Evaluation.Basic

/-! # Dynamic import and import.meta

A dynamic import makes a promise and a ticket. The host finds the module and redeems the ticket,
once; then the module is linked and evaluated, and the promise is fulfilled with its namespace. -/

namespace ModuleGraph

variable {σ κ : Type} (host : Host σ κ)

/-- The text of a value that is used as a specifier. -/
def specifierText (v : Value) : Act σ κ String :=
  match v.text? with
  | some text => pure text
  | none => .fail .typeError "Cannot convert object to primitive value"

/-- Takes the import behind a ticket; the place is empty afterwards. -/
def Machine.takeImport (s : Machine σ κ) (t : TicketId) : Option PendingImport × Machine σ κ :=
  match s.import? t with
  | some i => (some i, { s with imports := s.imports.setIfInBounds t.index none })
  | none => (none, s)

namespace Host

def importCall (host : Host σ κ) (referrer : Referrer) (specifier : Value) :
    Run σ κ PromiseId := do
  let capability ← Run.make Machine.newCapability
  match ← (specifierText specifier).outcome with
  | .error e =>
    Run.update fun s => s.reject host.track capability e
    pure capability.promise
  | .ok specifier =>
    let ticket ← Run.make fun s => s.newImport { referrer, specifier, capability }
    host.importRequested referrer specifier ticket
    pure capability.promise

def loadImported (host : Host σ κ) (capability : Capability) (m : ModuleId) : Run σ κ Unit := do
  match ← host.link m with
  | .error e =>
    let v ← e.toValue
    Run.update fun s => s.reject host.track capability v
  | .ok () =>
    let p ← host.evaluate m
    Run.update fun s => s.attach host.track p ⟨.imported m, some capability⟩

/-- Redeems a ticket with the module, or with what finding it threw. -/
def finishImport (host : Host σ κ) (ticket : TicketId) (found : Except Value ModuleId) :
    Run σ κ Unit := do
  match ← Run.make fun s => s.takeImport ticket with
  | none => pure ()
  | some i =>
    match found with
    | .error e => Run.update fun s => s.reject host.track i.capability e
    | .ok m => host.loadImported i.capability m

/-- The `import.meta` object of a module, made when it is first asked for. -/
def importMeta (host : Host σ κ) (m : ModuleId) : Run σ κ ObjectId := do
  match ← Run.view fun s => (s.module m).metaObject with
  | some o => pure o
  | none =>
    let o ← Run.make fun s => s.newObject []
    let values ← host.metaProperties m
    Run.update fun s =>
      values.foldl (fun s p => s.setObject o ((s.object o).put p.1 p.2)) s
    host.finishMeta o m
    Run.update fun s => s.updateModule m fun x => { x with metaObject := some o }
    pure o

end Host

end ModuleGraph

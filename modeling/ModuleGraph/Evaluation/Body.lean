import ModuleGraph.Machine.Host

/-! # Running bodies

A body runs once all that its module waits for is done. The body of a synchronous module has to
complete at once; one with top-level await settles a capability when it ends, and the promise of
that capability carries the news to the modules that wait. -/

namespace ModuleGraph

variable {σ κ : Type} (host : Host σ κ)

def runBody (m : ModuleId) : Act σ κ (Execution κ) := do
  match ← Act.view fun s => (s.module m).kind with
  | .source .. => host.execute m
  | .foreign true _ => host.executeForeign m
  | .foreign false _ | .leaf _ =>
    .fail .typeError "Module must be linked before it can be evaluated"

def runSyncBody (m : ModuleId) : Act σ κ Unit := do
  match ← runBody host m with
  | .completed => pure ()
  | .waiting .. => .fail .syntaxError "await is only valid in modules with top-level await"

/-- Settles the capability of a body that has ended, or lets the body wait. -/
def Machine.continueBody (s : Machine σ κ) (m : ModuleId) (c : Capability) :
    Except Value (Execution κ) → Machine σ κ
  | .ok .completed => s.resolve host.track c .undefined
  | .ok (.waiting p code) => s.attach host.track p ⟨.resumeBody m c code, none⟩
  | .error e => s.reject host.track c e

def startAsyncBody (m : ModuleId) : Run σ κ Unit := do
  let c ← Run.make Machine.newCapability
  Run.update fun s => s.attach host.track c.promise ⟨.bodyEnded m, none⟩
  let execution ← (runBody host m).outcome
  Run.update fun s => s.continueBody host m c execution

end ModuleGraph

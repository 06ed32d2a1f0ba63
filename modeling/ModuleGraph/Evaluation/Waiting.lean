import ModuleGraph.Evaluation.Body

/-! # Modules that wait

When the body of an asynchronous module has ended well, each module that waits for it waits for
one thing less; those that wait for nothing more run in the order of their turns. When the body
has thrown, every module that waits for it fails with the same value. -/

namespace ModuleGraph

variable {σ κ : Type} (host : Host σ κ)

namespace Machine

def rootFailed (s : Machine σ κ) (m : ModuleId) : Bool := (s.cyclic (s.cycleRoot m)).error.isSome

def release (s : Machine σ κ) (m : ModuleId) : Machine σ κ :=
  s.updateCyclic m fun c => { c with pending := c.pending.map (· - 1) }

/-- Counts down one waiting module; if it is ready it joins the list, and if it has no top-level
await then so do the modules that wait for it. -/
def gatherOne (gather : Machine σ κ → ModuleId → List ModuleId → List ModuleId × Machine σ κ)
    (s : Machine σ κ) (ready : List ModuleId) (m : ModuleId) : List ModuleId × Machine σ κ :=
  if ready.contains m || s.rootFailed m then (ready, s)
  else
    match (s.cyclic m).pending with
    | none | some 0 => (ready, s)
    | some (n + 1) =>
      let s := s.release m
      if n = 0 then
        if (s.cyclic m).hasAwait then (ready ++ [m], s) else gather s m (ready ++ [m])
      else (ready, s)

/-- The modules that become ready when `m` is done, added to a list; `fuel` bounds the length of a
chain of waiting modules. -/
def gatherReady : Nat → Machine σ κ → ModuleId → List ModuleId → List ModuleId × Machine σ κ
  | 0, s, _, ready => (ready, s)
  | fuel + 1, s, m, ready =>
    (s.cyclic m).parents.foldl
      (fun (ready, s) parent => gatherOne (gatherReady fuel) s ready parent) (ready, s)

/-- The modules that become ready when `m` is done. A module joins the list once, so a chain is
not longer than the number of modules. -/
def readyAfter (s : Machine σ κ) (m : ModuleId) : List ModuleId × Machine σ κ :=
  gatherReady (s.modules.size + 1) s m []

/-- Ready modules by their turns; modules of the same rank keep their order. -/
def sortByTurn (s : Machine σ κ) (ready : List ModuleId) : List ModuleId :=
  ready.mergeSort fun a b => (s.cyclic a).order.isBefore (s.cyclic b).order

def complete (s : Machine σ κ) (m : ModuleId) : Machine σ κ :=
  s.updateCyclic m fun c => { c with order := .done, status := .evaluated }

/-- Tells those who asked for the evaluation of a module that it has succeeded. -/
def answer (s : Machine σ κ) (m : ModuleId) : Machine σ κ :=
  match (s.cyclic m).capability with
  | some c => s.resolve host.track c .undefined
  | none => s

/-- Fails a module and every module that waits for it; `fuel` bounds the length of a chain of
waiting modules. -/
def failWaiting : Nat → Machine σ κ → ModuleId → Value → Machine σ κ
  | 0, s, _, _ => s
  | fuel + 1, s, m, error =>
    let c := s.cyclic m
    if c.status = .evaluated then s
    else
      let s := s.updateCyclic m fun c => { c.fail error with order := .done }
      let s := c.parents.foldl (fun s parent => failWaiting fuel s parent error) s
      match c.capability with
      | some capability => s.reject host.track capability error
      | none => s

/-- Fails an asynchronous module and every module that waits for it. A module fails once, so a
chain is not longer than the number of modules. -/
def bodyFailed (s : Machine σ κ) (m : ModuleId) (error : Value) : Machine σ κ :=
  s.failWaiting host (s.modules.size + 1) m error

end Machine

def runReady (m : ModuleId) : Run σ κ Unit := do
  let c ← Run.view fun s => s.cyclic m
  if c.status = .evaluated then pure ()
  else if c.hasAwait then startAsyncBody host m
  else
    match ← (runSyncBody host m).outcome with
    | .ok () => Run.update fun s => (s.complete m).answer host m
    | .error e => Run.update fun s => s.bodyFailed host m e

/-- The body of an asynchronous module has ended well. -/
def bodySucceeded (m : ModuleId) : Run σ κ Unit := do
  if (← Run.view fun s => s.status m) = .evaluated then pure ()
  else
    Run.update fun s => (s.complete m).answer host m
    let ready ← Run.make fun s => s.readyAfter m
    let ready ← Run.view fun s => s.sortByTurn ready
    ready.forM (runReady host)

end ModuleGraph

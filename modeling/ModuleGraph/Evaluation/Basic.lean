import ModuleGraph.Evaluation.Waiting
import ModuleGraph.Linking.Basic

/-! # Evaluation

Evaluation visits the requested modules depth first and runs each body after those of its
requests. A module with top-level await, or that waits for one, gets a turn instead and is
finished by jobs. One promise answers for each cycle. -/

namespace ModuleGraph

variable {σ κ α : Type}

/-- Evaluation in a traversal, which is kept when evaluation throws. -/
abbrev EvalVisit (σ κ : Type) := ExceptT Value (StateT Traversal (Run σ κ))

namespace EvalVisit

def ofRun (r : Run σ κ α) : EvalVisit σ κ α := ExceptT.lift (StateT.lift r)

def update (f : Machine σ κ → Machine σ κ) : EvalVisit σ κ Unit := ofRun (Run.update f)

def view (f : Machine σ κ → α) : EvalVisit σ κ α := ofRun (Run.view f)

def ofAct (a : Act σ κ α) : EvalVisit σ κ α := do
  match ← ofRun a.outcome with
  | .ok v => pure v
  | .error e => throw e

end EvalVisit

variable (host : Host σ κ)

/-- Evaluates a leaf; a leaf keeps its promise. -/
def evaluateLeaf (m : ModuleId) : Run σ κ PromiseId := do
  match ← Run.view fun s => (s.module m).kind with
  | .leaf .linked => do
    let p ← match ← (host.evaluateLeaf m).outcome with
      | .ok () => Run.make fun s => s.newFulfilled .undefined
      | .error e => Run.make fun s => s.newRejected host.track e
    Run.update fun s => s.updateKind m fun
      | .leaf _ => .leaf (.evaluated p)
      | k => k
    pure p
  | .leaf (.evaluated p) => pure p
  | _ => do
    let e ← Run.make fun s =>
      s.newError .typeError "Module must be linked before it can be evaluated"
    Run.make fun s => s.newRejected host.track e

/-- Evaluates a leaf that a module requests; the module takes over its error. -/
def requireLeaf (m : ModuleId) : Act σ κ Unit := do
  let p ← Act.ofRun (evaluateLeaf host m)
  match ← Act.view fun s => s.promise p with
  | .rejected e _ =>
    Act.update fun s => s.markHandled host.track p
    throw e
  | .pending .. | .fulfilled _ => pure ()

def openEvaluation (m : ModuleId) : EvalVisit σ κ Unit := do
  let t ← get
  EvalVisit.update fun s => s.updateCyclic m fun c =>
    { c with
      status := .evaluating, visit := some t.visits, ancestor := some t.visits, pending := some 0 }
  set { t with stack := m :: t.stack, visits := t.visits + 1 : Traversal }

/-- Lets `m` wait for a module that has a turn. -/
def Machine.await (s : Machine σ κ) (m required : ModuleId) : Machine σ κ :=
  if (s.cyclic required).order.isTurn then
    (s.updateCyclic m fun c => { c with pending := c.pending.map (· + 1) }).updateCyclic required
      fun c => { c with parents := c.parents ++ [m] }
  else s

/-- Takes account of a requested module that was visited: a cycle that is open joins that of `m`,
one that failed fails `m` too, and one with a turn is waited for. -/
def afterRequest (m required : ModuleId) : EvalVisit σ κ Unit := do
  match ← EvalVisit.view fun s => s.cyclic? required with
  | none => pure ()
  | some c =>
    if c.status = .evaluating then
      EvalVisit.update fun s => (s.updateCyclic m (·.reach c.ancestor)).await m required
    else
      let root ← EvalVisit.view fun s => s.cycleRoot required
      match ← EvalVisit.view fun s => (s.cyclic root).error with
      | some e => throw e
      | none => EvalVisit.update fun s => s.await m root

def Machine.takeTurn (s : Machine σ κ) (m : ModuleId) : Machine σ κ :=
  let s' := s.updateCyclic m fun c => { c with order := .turn s.nextTurn }
  { s' with nextTurn := s.nextTurn + 1 }

/-- Runs the body of a module whose requests were visited, or gives it a turn. -/
def runOrWait (m : ModuleId) : EvalVisit σ κ Unit := do
  let c ← EvalVisit.view fun s => s.cyclic m
  let pending := c.pending.getD 0
  if 0 < pending || c.hasAwait then
    EvalVisit.update fun s => s.takeTurn m
    if pending = 0 then EvalVisit.ofRun (startAsyncBody host m)
  else EvalVisit.ofAct (runSyncBody host m)

/-- Ends the evaluation of one module of the cycle of `root`. A module whose work was done in the
meantime keeps its status. -/
def Cyclic.close (root : ModuleId) (c : Cyclic) : Cyclic :=
  { c with
    root := some root
    status := match c.order with
      | .unset => .evaluated
      | .turn _ => .evaluatingAsync
      | .done => c.status }

def closeEvaluation (m : ModuleId) : EvalVisit σ κ Unit := do
  if ← EvalVisit.view fun s => (s.cyclic m).isRoot then
    let (cycle, t) := (← get).close m
    EvalVisit.update fun s => cycle.foldl (fun s x => s.updateCyclic x (Cyclic.close m)) s
    set t

def visitEvaluation : Nat → ModuleId → EvalVisit σ κ Unit
  | 0, _ => .ofRun .exhausted
  | depth + 1, m => do
    match ← EvalVisit.view fun s => s.cyclic? m with
    | none => .ofAct (requireLeaf host m)
    | some c =>
      match c.status with
      | .evaluatingAsync | .evaluated =>
        match c.error with
        | some e => throw e
        | none => pure ()
      | .evaluating => pure ()
      | .unlinked | .linking | .linked => do
        openEvaluation m
        c.requested.forM fun request => do
          let required ← EvalVisit.ofAct (host.resolve (.module m) request)
          visitEvaluation depth required
          afterRequest m required
        runOrWait host m
        closeEvaluation m

/-- Ends an evaluation that was started for `m`: fails the modules that are still open, or answers
at once if nothing is left to wait for. -/
def Machine.finishEvaluation (s : Machine σ κ) (m : ModuleId) (c : Capability)
    (result : Except Value Unit) (stack : List ModuleId) : Machine σ κ :=
  match result with
  | .error e =>
    (stack.foldl (fun s x => s.updateCyclic x (·.fail e)) s).reject host.track c e
  | .ok () => if s.status m = .evaluated then s.resolve host.track c .undefined else s

def startEvaluation (m : ModuleId) : Run σ κ PromiseId := do
  let c ← Run.make Machine.newCapability
  Run.update fun s => s.updateCyclic m fun x => { x with capability := some c }
  let (result, t) ← (visitEvaluation host host.depth m).run.run ⟨[], 0⟩
  Run.update fun s => s.finishEvaluation host m c result t.stack
  pure c.promise

/-- Why a module cannot be evaluated now. -/
def refusal? : Status → Option String
  | .unlinked | .linking => some "Module must be linked before it can be evaluated"
  | .evaluating => some "Module is already being evaluated"
  | .linked | .evaluatingAsync | .evaluated => none

def evaluateCyclic (m : ModuleId) : Run σ κ PromiseId := do
  let status ← Run.view fun s => s.status m
  match refusal? status with
  | some message => do
    let e ← Run.make fun s => s.newError .typeError message
    Run.make fun s => s.newRejected host.track e
  | none => do
    let m ← if status = .linked then pure m else Run.view fun s => s.cycleRoot m
    match ← Run.view fun s => (s.cyclic m).capability with
    | some c => pure c.promise
    | none => startEvaluation host m

namespace Host

/-- The promise for the evaluation of a module and everything below it. -/
def evaluate (host : Host σ κ) (m : ModuleId) : Run σ κ PromiseId := do
  if ← Run.view fun s => s.isCyclic m then evaluateCyclic host m
  else ModuleGraph.evaluateLeaf host m

end Host

end ModuleGraph

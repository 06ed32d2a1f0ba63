import ModuleGraph.Evaluation.Import

/-! # Jobs

Jobs run one at a time in the order in which they were queued. A reaction runs its handler with
the settlement of its promise, and the result settles the capability of the reaction. -/

namespace ModuleGraph

variable {σ κ : Type} (host : Host σ κ)

/-- Takes a reaction; its place is empty afterwards. -/
def Machine.takeReaction (s : Machine σ κ) (r : ReactionId) : Option (Reaction κ) × Machine σ κ :=
  match s.reactions[r.index]? with
  | some (some reaction) =>
    (some reaction, { s with reactions := s.reactions.setIfInBounds r.index none })
  | some none | none => (none, s)

def runHandler (handler : Handler κ) (settlement : Settlement) : Act σ κ Value :=
  match handler with
  | .passOn => .ofExcept settlement.toExcept
  | .callback code => host.call code settlement
  | .bodyEnded m =>
    match settlement with
    | .fulfilled _ => do
      Act.ofRun (bodySucceeded host m)
      pure .undefined
    | .rejected e => do
      Act.update fun s => s.bodyFailed host m e
      pure .undefined
  | .resumeBody m c code => do
    let execution ← Act.ofRun (host.resume code settlement).outcome
    Act.update fun s => s.continueBody host m c execution
    pure .undefined
  | .imported m =>
    match settlement with
    | .fulfilled _ => host.namespaceOf m
    | .rejected e => throw e
  | .joined j position =>
    match settlement with
    | .fulfilled v => do
      Act.update fun s => s.joinFulfilled host.track j position v
      pure .undefined
    | .rejected e => do
      Act.update fun s => s.joinRejected host.track j e
      pure .undefined

/-- Runs a job. One whose reaction has a capability does not throw. -/
def runJob (job : Job) : Act σ κ Unit :=
  match job with
  | .adopt promise followed =>
    Act.update fun s => s.attach host.track followed ⟨.passOn, some ⟨promise, false⟩⟩
  | .finishImport referrer specifier ticket => do
    let found ← Act.ofRun (host.resolve referrer specifier).outcome
    Act.ofRun (host.finishImport ticket found)
  | .react r settlement => do
    match ← Act.make fun s => s.takeReaction r with
    | none => pure ()
    | some reaction =>
      let result ← Act.ofRun (runHandler host reaction.handler settlement).outcome
      match reaction.capability with
      | some c => Act.update fun s => s.settle host.track c result
      | none =>
        match result with
        | .ok _ => pure ()
        | .error e => throw e

def Machine.takeJob (s : Machine σ κ) : Option Job × Machine σ κ :=
  match s.jobs with
  | job :: rest => (some job, { s with jobs := rest })
  | [] => (none, s)

/-- Runs the next job, and tells whether there was one. -/
def runNextJob : Act σ κ Bool := do
  match ← Act.make Machine.takeJob with
  | some job =>
    runJob host job
    pure true
  | none => pure false

/-- Runs at most `count` jobs, until the queue is empty or a job throws. -/
def drain : Nat → Act σ κ Unit
  | 0 => .ofRun .exhausted
  | count + 1 => do
    if ← runNextJob host then drain count

/-- Runs the jobs of the queue and those that they queue. -/
def Host.runJobs (host : Host σ κ) : Act σ κ Unit := drain host host.depth

end ModuleGraph

import ModuleGraph.Machine.Basic

/-! # Settling promises

A promise is settled through a capability, at most once. Each reaction that was attached before is
queued as a job in the order of attachment, one that comes later is queued at once. The host is
told when a promise is rejected that nobody looks at, and again when somebody does. -/

namespace ModuleGraph

/-- What the host is told about a rejected promise. -/
inductive RejectionEvent where
  /-- It was rejected without a reaction. -/
  | unhandled
  /-- It got its first reaction afterwards. -/
  | handled
  deriving DecidableEq, Repr, Inhabited

/-- How the host notes what it is told about a rejected promise. -/
abbrev Tracker (σ : Type) := PromiseId → RejectionEvent → σ → σ

namespace Machine

variable {σ κ : Type} (track : Tracker σ)

/-- Keeps the list of unhandled rejections and tells the host. -/
def noteRejection (s : Machine σ κ) (p : PromiseId) (event : RejectionEvent) : Machine σ κ :=
  { s with
    host := track p event s.host
    unhandled := match event with
      | .unhandled => s.unhandled ++ [p]
      | .handled => s.unhandled.filter (· != p) }

def enqueueReactions (s : Machine σ κ) (reactions : List ReactionId) (settlement : Settlement) :
    Machine σ κ :=
  { s with jobs := s.jobs ++ reactions.map fun r => .react r settlement }

def fulfil (s : Machine σ κ) (p : PromiseId) (value : Value) : Machine σ κ :=
  match s.promise p with
  | .pending reactions _ =>
    (s.setPromise p (.fulfilled value)).enqueueReactions reactions (.fulfilled value)
  | .fulfilled _ | .rejected .. => s

/-- Rejects a pending promise; it is handled if it has a reaction already. -/
def rejectPending (s : Machine σ κ) (p : PromiseId) (reason : Value) : Machine σ κ :=
  match s.promise p with
  | .pending reactions _ =>
    let s := s.setPromise p (.rejected reason (!reactions.isEmpty))
    let s := if reactions.isEmpty then s.noteRejection track p .unhandled else s
    s.enqueueReactions reactions (.rejected reason)
  | .fulfilled _ | .rejected .. => s

/-- Whether a capability has nothing left to settle. -/
def isSpent (s : Machine σ κ) (c : Capability) : Bool :=
  match s.promise c.promise with
  | .pending _ resolved => c.mustBeUnresolved && resolved
  | .fulfilled _ | .rejected .. => true

/-- Marks a pending promise as resolved. -/
def markResolved (s : Machine σ κ) (p : PromiseId) : Machine σ κ :=
  match s.promise p with
  | .pending reactions _ => s.setPromise p (.pending reactions true)
  | .fulfilled _ | .rejected .. => s

/-- Resolves a promise: with a value, with another promise that it follows from then on, or with
itself, which is an error. -/
def resolve (s : Machine σ κ) (c : Capability) (value : Value) : Machine σ κ :=
  if s.isSpent c then s
  else
    let s := s.markResolved c.promise
    match value with
    | .promise followed =>
      if followed = c.promise then
        let (e, s) := s.newError .typeError "Tried to resolve a promise with itself."
        s.rejectPending track c.promise e
      else s.enqueue (.adopt c.promise followed)
    | v => s.fulfil c.promise v

def reject (s : Machine σ κ) (c : Capability) (reason : Value) : Machine σ κ :=
  if s.isSpent c then s else s.rejectPending track c.promise reason

/-- Settles a promise with the result of a call. -/
def settle (s : Machine σ κ) (c : Capability) : Except Value Value → Machine σ κ
  | .ok v => s.resolve track c v
  | .error e => s.reject track c e

def newCapability (s : Machine σ κ) : Capability × Machine σ κ :=
  let (p, s) := s.newPromise (.pending [] false)
  (⟨p, true⟩, s)

/-- A promise fulfilled with exactly this value. -/
def newFulfilled (s : Machine σ κ) (value : Value) : PromiseId × Machine σ κ :=
  s.newPromise (.fulfilled value)

/-- A promise rejected with this reason. -/
def newRejected (s : Machine σ κ) (reason : Value) : PromiseId × Machine σ κ :=
  let (c, s) := s.newCapability
  (c.promise, s.reject track c reason)

/-- The promise itself, or a new one resolved with the value. -/
def promiseOf (s : Machine σ κ) (value : Value) : PromiseId × Machine σ κ :=
  match value with
  | .promise p => (p, s)
  | v =>
    let (c, s) := s.newCapability
    (c.promise, s.resolve track c v)

def markHandled (s : Machine σ κ) (p : PromiseId) : Machine σ κ :=
  match s.promise p with
  | .rejected reason false =>
    (s.setPromise p (.rejected reason true)).noteRejection track p .handled
  | .rejected _ true | .pending .. | .fulfilled _ => s

/-- Attaches a reaction to a promise; if that is settled, the reaction is queued at once. -/
def attach (s : Machine σ κ) (p : PromiseId) (reaction : Reaction κ) : Machine σ κ :=
  let (r, s) := s.newReaction reaction
  match s.promise p with
  | .pending reactions resolved => s.setPromise p (.pending (reactions ++ [r]) resolved)
  | .fulfilled v => s.enqueue (.react r (.fulfilled v))
  | .rejected e _ => (s.markHandled track p).enqueue (.react r (.rejected e))

/-- Calls code of the host with the settlement of a promise; the result settles a new one. -/
def thenCall (s : Machine σ κ) (p : PromiseId) (code : κ) : PromiseId × Machine σ κ :=
  let (c, s) := s.newCapability
  (c.promise, s.attach track p ⟨.callback code, some c⟩)

end Machine

end ModuleGraph

import ModuleGraph.Machine.Environment
import ModuleGraph.Record.Source

/-! # The machine

The machine holds every module, promise, reaction, object and error that was made, the queue of
jobs, and the promises whose rejection nobody has handled. Things are named by their place and are
never removed. `σ` is the state that the host keeps beside them and `κ` the suspended code of the
host: bodies that wait for a promise, and callbacks. -/

namespace ModuleGraph

structure ReactionId where
  index : Nat
  deriving DecidableEq, Repr, Inhabited

/-- The place of a joint wait for several promises. -/
structure JoinId where
  index : Nat
  deriving DecidableEq, Repr, Inhabited

structure ScriptId where
  index : Nat
  deriving DecidableEq, Repr, Inhabited

/-- The place of a dynamic import that the host was asked for. -/
structure TicketId where
  index : Nat
  deriving DecidableEq, Repr, Inhabited

/-- Who asks for a module. -/
inductive Referrer where
  | module (id : ModuleId)
  | script (id : ScriptId)
  deriving DecidableEq, Repr, Inhabited

/-- The right to settle a promise. One that must find its promise unresolved does nothing after
the first settlement; the other kind settles a promise that waits for another one. -/
structure Capability where
  promise : PromiseId
  mustBeUnresolved : Bool
  deriving DecidableEq, Repr, Inhabited

inductive PromiseState where
  | pending (reactions : List ReactionId) (resolved : Bool)
  | fulfilled (value : Value)
  | rejected (reason : Value) (handled : Bool)
  deriving DecidableEq, Repr, Inhabited

namespace PromiseState

def settlement? : PromiseState → Option Settlement
  | .pending .. => none
  | .fulfilled v => some (.fulfilled v)
  | .rejected e _ => some (.rejected e)

def isPending : PromiseState → Bool
  | .pending .. => true
  | .fulfilled _ | .rejected .. => false

end PromiseState

/-- What runs when a promise is settled. -/
inductive Handler (κ : Type) where
  /-- Passes the settlement on. -/
  | passOn
  | callback (code : κ)
  /-- The body of an asynchronous module has ended. -/
  | bodyEnded (module : ModuleId)
  /-- A body waits here; its own end settles the capability. -/
  | resumeBody (module : ModuleId) (capability : Capability) (code : κ)
  /-- A dynamically imported module has been evaluated. -/
  | imported (module : ModuleId)
  /-- One of several promises that are waited for together. -/
  | joined (join : JoinId) (position : Nat)
  deriving Repr, Inhabited

/-- A handler and the capability that its result settles. -/
structure Reaction (κ : Type) where
  handler : Handler κ
  capability : Option Capability
  deriving Repr, Inhabited

/-- A wait for several promises: how many are missing, the values so far, whom to tell. -/
structure Join where
  remaining : Nat
  values : List Value
  capability : Capability
  deriving DecidableEq, Repr, Inhabited

structure PendingImport where
  referrer : Referrer
  specifier : String
  capability : Capability
  deriving DecidableEq, Repr, Inhabited

inductive Job where
  | react (reaction : ReactionId) (settlement : Settlement)
  /-- Lets a promise follow another one. -/
  | adopt (promise followed : PromiseId)
  /-- Resolves the specifier of a dynamic import and finishes it. -/
  | finishImport (referrer : Referrer) (specifier : String) (ticket : TicketId)
  deriving DecidableEq, Repr, Inhabited

/-- The stages of a module. A failed link leads back to the first. -/
inductive Status where
  | unlinked
  | linking
  | linked
  | evaluating
  | evaluatingAsync
  | evaluated
  deriving DecidableEq, Repr, Inhabited

def Status.name : Status → String
  | .unlinked => "Unlinked"
  | .linking => "Linking"
  | .linked => "Linked"
  | .evaluating => "Evaluating"
  | .evaluatingAsync => "EvaluatingAsync"
  | .evaluated => "Evaluated"

/-- The turn of a module that has asynchronous work of its own or below it. -/
inductive AsyncOrder where
  | unset
  | turn (n : Nat)
  | done
  deriving DecidableEq, Repr, Inhabited

namespace AsyncOrder

def isTurn : AsyncOrder → Bool
  | .turn _ => true
  | .unset | .done => false

/-- Whether the first does not come after the second; what is no turn comes last. -/
def isBefore : AsyncOrder → AsyncOrder → Bool
  | .turn m, .turn n => m ≤ n
  | .turn _, .unset | .turn _, .done => true
  | .unset, x | .done, x => !x.isTurn

end AsyncOrder

/-- The fields of a module that can take part in cycles. -/
structure Cyclic where
  status : Status
  /-- What evaluating the module or one of its dependencies threw. -/
  error : Option Value
  /-- The time of the first visit in the current traversal, and the earliest one reachable. -/
  visit : Option Nat
  ancestor : Option Nat
  requested : List String
  /-- The first visited module of the cycle, once the cycle has been evaluated. -/
  root : Option ModuleId
  hasAwait : Bool
  order : AsyncOrder
  /-- Answers for the evaluation of the whole cycle. -/
  capability : Option Capability
  /-- The modules that wait for this one, once for each request. -/
  parents : List ModuleId
  /-- How many requests of this module are still waited for. -/
  pending : Option Nat
  deriving DecidableEq, Repr, Inhabited

def Cyclic.new (requested : List String) (hasAwait : Bool) : Cyclic :=
  { status := .unlinked, error := none, visit := none, ancestor := none, requested
    root := none, hasAwait, order := .unset, capability := none, parents := [], pending := none }

/-- Whether the module is the first visited one of its cycle. -/
def Cyclic.isRoot (c : Cyclic) : Bool := c.ancestor == c.visit

/-- Notes that a module visited at `ancestor` can be reached. -/
def Cyclic.reach (c : Cyclic) (ancestor : Option Nat) : Cyclic :=
  { c with
    ancestor := match c.ancestor, ancestor with
      | some own, some other => some (min own other)
      | own, other => own.or other }

def Cyclic.fail (c : Cyclic) (error : Value) : Cyclic :=
  { c with error := some error, status := .evaluated }

inductive LeafState where
  | unlinked
  | linked
  | evaluated (promise : PromiseId)
  deriving DecidableEq, Repr, Inhabited

/-- What a module is made of: source text, code of the host that takes part in cycles, or code of
the host that requests nothing. -/
inductive ModuleKind where
  | source (record : SourceRecord) (environment : Option Environment) (cyclic : Cyclic)
  | foreign (instantiated : Bool) (cyclic : Cyclic)
  | leaf (state : LeafState)
  deriving DecidableEq, Repr, Inhabited

structure Module where
  kind : ModuleKind
  /-- What the host attached when it made the module. -/
  label : Option String
  /-- The keys of the namespace object, once it was asked for. -/
  exports : Option (List String)
  /-- The object behind `import.meta`, once it was asked for. -/
  metaObject : Option ObjectId
  deriving DecidableEq, Repr, Inhabited

def Module.new (kind : ModuleKind) (label : Option String) : Module := ⟨kind, label, none, none⟩

namespace ModuleKind

def cyclic? : ModuleKind → Option Cyclic
  | .source _ _ c => some c
  | .foreign _ c => some c
  | .leaf _ => none

def updateCyclic (f : Cyclic → Cyclic) : ModuleKind → ModuleKind
  | .source r env c => .source r env (f c)
  | .foreign i c => .foreign i (f c)
  | .leaf s => .leaf s

def record? : ModuleKind → Option SourceRecord
  | .source r _ _ => some r
  | .foreign .. | .leaf _ => none

def environment? : ModuleKind → Option Environment
  | .source _ env _ => env
  | .foreign .. | .leaf _ => none

def setEnvironment (env : Environment) : ModuleKind → ModuleKind
  | .source r _ c => .source r (some env) c
  | k => k

def unlink : ModuleKind → ModuleKind
  | .source r _ c => .source r none c
  | .foreign _ c => .foreign false c
  | .leaf s => .leaf s

def status : ModuleKind → Status
  | .source _ _ c => c.status
  | .foreign _ c => c.status
  | .leaf .unlinked => .unlinked
  | .leaf .linked => .linked
  | .leaf (.evaluated _) => .evaluated

def isSource : ModuleKind → Bool
  | .source .. => true
  | .foreign .. | .leaf _ => false

@[simp] theorem cyclic?_updateCyclic (f : Cyclic → Cyclic) (k : ModuleKind) :
    (k.updateCyclic f).cyclic? = k.cyclic?.map f := by
  cases k <;> rfl

@[simp] theorem record?_updateCyclic (f : Cyclic → Cyclic) (k : ModuleKind) :
    (k.updateCyclic f).record? = k.record? := by
  cases k <;> rfl

@[simp] theorem environment?_updateCyclic (f : Cyclic → Cyclic) (k : ModuleKind) :
    (k.updateCyclic f).environment? = k.environment? := by
  cases k <;> rfl

end ModuleKind

structure Machine (σ κ : Type) where
  modules : Array Module
  promises : Array PromiseState
  /-- A reaction that has run leaves its place empty. -/
  reactions : Array (Option (Reaction κ))
  joins : Array Join
  objects : Array Properties
  errors : Array ErrorObject
  /-- What the host attached to each script. -/
  scripts : Array (Option String)
  /-- A dynamic import that was finished leaves its place empty. -/
  imports : Array (Option PendingImport)
  /-- The turn of the next asynchronous module. -/
  nextTurn : Nat
  /-- The jobs to run, the next one first. -/
  jobs : List Job
  /-- The rejected promises that nobody has handled, in the order of rejection. -/
  unhandled : List PromiseId
  host : σ

namespace Machine

variable {σ κ : Type}

def initial (host : σ) : Machine σ κ :=
  { modules := #[], promises := #[], reactions := #[], joins := #[], objects := #[], errors := #[]
    scripts := #[], imports := #[], nextTurn := 1, jobs := [], unhandled := [], host }

instance [Inhabited σ] : Inhabited (Machine σ κ) := ⟨initial default⟩

def module (s : Machine σ κ) (m : ModuleId) : Module := s.modules.getD m.index default

def promise (s : Machine σ κ) (p : PromiseId) : PromiseState := s.promises.getD p.index default

def object (s : Machine σ κ) (o : ObjectId) : Properties := s.objects.getD o.index []

def error (s : Machine σ κ) (e : ErrorId) : ErrorObject := s.errors.getD e.index default

def import? (s : Machine σ κ) (t : TicketId) : Option PendingImport :=
  (s.imports[t.index]?).bind id

def script (s : Machine σ κ) (i : ScriptId) : Option String := (s.scripts[i.index]?).bind id

/-- The fields of a module that can take part in cycles. -/
def cyclic? (s : Machine σ κ) (m : ModuleId) : Option Cyclic := (s.module m).kind.cyclic?

/-- The same fields; those of a leaf are blank. -/
def cyclic (s : Machine σ κ) (m : ModuleId) : Cyclic := (s.cyclic? m).getD default

def isCyclic (s : Machine σ κ) (m : ModuleId) : Bool := (s.cyclic? m).isSome

def status (s : Machine σ κ) (m : ModuleId) : Status := (s.module m).kind.status

def environment? (s : Machine σ κ) (m : ModuleId) : Option Environment :=
  (s.module m).kind.environment?

def record? (s : Machine σ κ) (m : ModuleId) : Option SourceRecord := (s.module m).kind.record?

def requested (s : Machine σ κ) (m : ModuleId) : List String :=
  ((s.cyclic? m).map (·.requested)).getD []

def cycleRoot? (s : Machine σ κ) (m : ModuleId) : Option ModuleId := (s.cyclic? m).bind (·.root)

/-- The module that answers for the cycle of `m`: the root once there is one, else `m`. -/
def cycleRoot (s : Machine σ κ) (m : ModuleId) : ModuleId := (s.cycleRoot? m).getD m

def hasAwait (s : Machine σ κ) (m : ModuleId) : Bool := ((s.cyclic? m).map (·.hasAwait)).getD false

/-- What evaluating a module threw; for a leaf, the reason of its promise. -/
def evaluationError? (s : Machine σ κ) (m : ModuleId) : Option Value :=
  match (s.module m).kind with
  | .source _ _ c => c.error
  | .foreign _ c => c.error
  | .leaf (.evaluated p) =>
    match s.promise p with
    | .rejected e _ => some e
    | .pending .. | .fulfilled _ => none
  | .leaf _ => none

def setHost (s : Machine σ κ) (host : σ) : Machine σ κ := { s with host }

def updateModule (s : Machine σ κ) (m : ModuleId) (f : Module → Module) : Machine σ κ :=
  { s with modules := s.modules.modify m.index f }

def updateKind (s : Machine σ κ) (m : ModuleId) (f : ModuleKind → ModuleKind) : Machine σ κ :=
  s.updateModule m fun x => { x with kind := f x.kind }

def updateCyclic (s : Machine σ κ) (m : ModuleId) (f : Cyclic → Cyclic) : Machine σ κ :=
  s.updateKind m (ModuleKind.updateCyclic f)

def setStatus (s : Machine σ κ) (m : ModuleId) (status : Status) : Machine σ κ :=
  s.updateCyclic m fun c => { c with status }

def setEnvironment (s : Machine σ κ) (m : ModuleId) (env : Environment) : Machine σ κ :=
  s.updateKind m (ModuleKind.setEnvironment env)

def setPromise (s : Machine σ κ) (p : PromiseId) (state : PromiseState) : Machine σ κ :=
  { s with promises := s.promises.setIfInBounds p.index state }

def setObject (s : Machine σ κ) (o : ObjectId) (properties : Properties) : Machine σ κ :=
  { s with objects := s.objects.setIfInBounds o.index properties }

def enqueue (s : Machine σ κ) (job : Job) : Machine σ κ := { s with jobs := s.jobs ++ [job] }

def newModule (s : Machine σ κ) (m : Module) : ModuleId × Machine σ κ :=
  (⟨s.modules.size⟩, { s with modules := s.modules.push m })

def newPromise (s : Machine σ κ) (state : PromiseState) : PromiseId × Machine σ κ :=
  (⟨s.promises.size⟩, { s with promises := s.promises.push state })

def newReaction (s : Machine σ κ) (r : Reaction κ) : ReactionId × Machine σ κ :=
  (⟨s.reactions.size⟩, { s with reactions := s.reactions.push (some r) })

def newJoin (s : Machine σ κ) (j : Join) : JoinId × Machine σ κ :=
  (⟨s.joins.size⟩, { s with joins := s.joins.push j })

def newObject (s : Machine σ κ) (o : Properties) : ObjectId × Machine σ κ :=
  (⟨s.objects.size⟩, { s with objects := s.objects.push o })

def newError (s : Machine σ κ) (kind : ErrorKind) (message : String) : Value × Machine σ κ :=
  (.error ⟨s.errors.size⟩, { s with errors := s.errors.push ⟨kind, message⟩ })

def newScript (s : Machine σ κ) (label : Option String) : ScriptId × Machine σ κ :=
  (⟨s.scripts.size⟩, { s with scripts := s.scripts.push label })

def newImport (s : Machine σ κ) (i : PendingImport) : TicketId × Machine σ κ :=
  (⟨s.imports.size⟩, { s with imports := s.imports.push (some i) })

def newSource (s : Machine σ κ) (record : SourceRecord) (label : Option String) :
    ModuleId × Machine σ κ :=
  s.newModule (.new (.source record none (.new record.requested record.hasAwait)) label)

def newForeign (s : Machine σ κ) (requested : List String) (label : Option String) :
    ModuleId × Machine σ κ :=
  s.newModule (.new (.foreign false (.new requested false)) label)

def newLeaf (s : Machine σ κ) (label : Option String) : ModuleId × Machine σ κ :=
  s.newModule (.new (.leaf .unlinked) label)

/-- The text of any value, for messages to people. -/
def describe (s : Machine σ κ) : Value → String
  | .error e => (s.error e).text
  | .object _ => "[object Object]"
  | .promise _ => "[object Promise]"
  | .namespace _ => "[object Module]"
  | v => v.text?.getD ""

/-- The text of the state of a promise, for messages to people. -/
def describePromise (s : Machine σ κ) (p : PromiseId) : String :=
  match s.promise p with
  | .pending .. => "pending"
  | .fulfilled v => "fulfilled " ++ s.describe v
  | .rejected e _ => "rejected " ++ s.describe e

end Machine

end ModuleGraph

import ModuleGraph.Proofs.Lookups
import ModuleGraph.Proofs.Promises.Wired

/-! # How a host conducts itself during a run

The code of a host makes modules and promises, settles promises that it may settle, and attaches
callbacks; it starts dynamic imports and answers requests. A body does nothing else, and neither do
the hooks. Between bodies and jobs the host links and evaluates modules and redeems tickets, and a
callback may do so too. A run is a sequence of such moves and of jobs.

A host that has the promise of an evaluation can settle it, too. What a theorem says about such a
promise it says about reserved ones, which the host leaves to the evaluation. -/

namespace ModuleGraph

open Relation

variable {σ κ : Type}

def ModuleKind.leaf? : ModuleKind → Option LeafState
  | .leaf state => some state
  | .source .. | .foreign .. => none

theorem ModuleKind.eq_of_leaf? {k : ModuleKind} {state : LeafState} (h : k.leaf? = some state) :
    k = .leaf state := by
  cases k <;> cases h
  rfl

/-- A module that has what it needs to run: a foreign one has its instance. -/
def ModuleKind.IsRunnable : ModuleKind → Prop
  | .foreign instantiated _ => instantiated = true
  | .source .. | .leaf _ => True

namespace Machine

structure Elsewhere (journal : σ → Journal) (s s' : Machine σ κ) : Prop where
  has : ∀ m, s.Has m → s'.Has m
  cyclic : ∀ m, s.Has m → s'.cyclic? m = s.cyclic? m
  leaf : ∀ m, s.Has m → (s'.module m).kind.leaf? = (s.module m).kind.leaf?
  runnable : ∀ m, s.Has m → (s.module m).kind.IsRunnable → (s'.module m).kind.IsRunnable
  made : ∀ m, ¬s.Has m → (s'.module m).kind.IsNew
  errors : s.KeepsErrors s'
  noted : ∃ k : Journal, k.Answers ∧ journal s'.host = journal s.host ++ k
  size : s'.promises.size = s.promises.size
  phase : ∀ p, (s'.promise p).phase = (s.promise p).phase
  held : ∀ p, (s'.promise p).reactions = (s.promise p).reactions
  reactions : s'.reactions = s.reactions
  joins : s'.joins.size = s.joins.size ∧ ∀ j, (s'.join j).capability = (s.join j).capability
  imports : ∀ t i, s'.import? t = some i → s.import? t = some i
  jobs : s'.jobs = s.jobs
  nextTurn : s'.nextTurn = s.nextTurn

def Answers (s : Machine σ κ) (p : PromiseId) : Prop :=
  ∃ m c, (s.cyclic m).capability = some c ∧ c.promise = p

/-- The host may settle a promise unless it carries the end of a body. While a reserved promise
answers for an evaluation, the host does not settle it either. -/
structure MaySettle (reserved : Set PromiseId) (s : Machine σ κ) (p : PromiseId) : Prop where
  made : s.Made p
  body : ∀ m, ¬s.IsBody p m
  answer : p ∈ reserved → ¬s.Answers p

structure MayAttach (reserved : Set PromiseId) (s : Machine σ κ) (reaction : Reaction κ) :
    Prop where
  handler : ¬reaction.handler.isOfBody
  joined : ∀ j k, reaction.handler = .joined j k → j.index < s.joins.size
  capability : ∀ c, reaction.capability = some c → s.MaySettle reserved c.promise

inductive Call (journal : σ → Journal) (reserved : Set PromiseId) (hosts : Set (Host σ κ)) :
    Machine σ κ → Machine σ κ → Prop
  | elsewhere {s s' : Machine σ κ} : s.Elsewhere journal s' → Call journal reserved hosts s s'
  | newPromise (s : Machine σ κ) {state : PromiseState} : state.reactions = [] →
      Call journal reserved hosts s (s.newPromise state).2
  | settle (s : Machine σ κ) {host : Host σ κ} {c : Capability} (result : Except Value Value) :
      host ∈ hosts → s.MaySettle reserved c.promise →
        Call journal reserved hosts s (s.settle host.track c result)
  | attach (s : Machine σ κ) {host : Host σ κ} (p : PromiseId) {reaction : Reaction κ} :
      host ∈ hosts → s.MayAttach reserved reaction →
        Call journal reserved hosts s (s.attach host.track p reaction)
  | newJoin (s : Machine σ κ) {j : Join} : s.MaySettle reserved j.capability.promise →
      Call journal reserved hosts s (s.newJoin j).2
  | newImport (s : Machine σ κ) {i : PendingImport} : s.MaySettle reserved i.capability.promise →
      Call journal reserved hosts s (s.newImport i).2
  | queueImport (s : Machine σ κ) (referrer : Referrer) (specifier : String) (ticket : TicketId) :
      Call journal reserved hosts s (s.enqueue (.finishImport referrer specifier ticket))

abbrev Calls (journal : σ → Journal) (reserved : Set PromiseId) (hosts : Set (Host σ κ)) :
    Machine σ κ → Machine σ κ → Prop := ReflTransGen (Call journal reserved hosts)

/-- One move between two jobs: a call, a link, an evaluation, or the end of a dynamic import. -/
inductive Move (journal : σ → Journal) (reserved : Set PromiseId) (hosts : Set (Host σ κ)) :
    Machine σ κ → Machine σ κ → Prop
  | call {s s' : Machine σ κ} : Call journal reserved hosts s s' → Move journal reserved hosts s s'
  | link {s s' : Machine σ κ} {host : Host σ κ} {m : ModuleId} {result : Except LinkError Unit} :
      host ∈ hosts → s.Has m → host.link m s = some (result, s') → Move journal reserved hosts s s'
  | evaluate {s s' : Machine σ κ} {host : Host σ κ} {m : ModuleId} {p : PromiseId} :
      host ∈ hosts → s.Has m → host.evaluate m s = some (p, s') → Move journal reserved hosts s s'
  | finishImport {s s' : Machine σ κ} {host : Host σ κ} {t : TicketId}
      {found : Except Value ModuleId} : host ∈ hosts → (∀ m, found = .ok m → s.Has m) →
        host.finishImport t found s = some ((), s') → Move journal reserved hosts s s'

/-- One step of a run. A job whose callback moves on its own, or that finishes a dynamic import, can
also be seen step by step: it is entered, and what follows are moves of their own. When a callback
has returned, its capability is settled by a call. -/
inductive Step (journal : σ → Journal) (reserved : Set PromiseId) (hosts : Set (Host σ κ)) :
    Machine σ κ → Machine σ κ → Prop
  | move {s s' : Machine σ κ} : Move journal reserved hosts s s' → Step journal reserved hosts s s'
  | job {s s' : Machine σ κ} {host : Host σ κ} {result : Except Value Bool} :
      host ∈ hosts → runNextJob host s = some (result, s') → Step journal reserved hosts s s'
  | enter (s : Machine σ κ) {r : ReactionId} {x : Settlement} {code : κ} :
      s.jobs.head? = some (.react r x) → s.handler? r = some (.callback code) →
        Step journal reserved hosts s (s.takeFirst r)
  | enterImport (s : Machine σ κ) {referrer : Referrer} {specifier : String} {ticket : TicketId} :
      s.jobs.head? = some (.finishImport referrer specifier ticket) →
        Step journal reserved hosts s { s with jobs := s.jobs.tail }

/-- The machines that a run can reach. -/
def Reachable (journal : σ → Journal) (reserved : Set PromiseId) (hosts : Set (Host σ κ))
    (s : Machine σ κ) : Prop :=
  ∃ h : σ, journal h = [] ∧ ReflTransGen (Step journal reserved hosts) (initial h) s

theorem Reachable.steps {journal : σ → Journal} {reserved : Set PromiseId} {hosts : Set (Host σ κ)}
    {s s' : Machine σ κ} (h : Reachable journal reserved hosts s)
    (hsteps : ReflTransGen (Step journal reserved hosts) s s') :
    Reachable journal reserved hosts s' := by
  obtain ⟨h₀, hj, hs⟩ := h
  exact ⟨h₀, hj, hs.trans hsteps⟩

theorem Reachable.move {journal : σ → Journal} {reserved : Set PromiseId} {hosts : Set (Host σ κ)}
    {s s' : Machine σ κ} (h : Reachable journal reserved hosts s)
    (hmove : Move journal reserved hosts s s') : Reachable journal reserved hosts s' :=
  h.steps (.single (.move hmove))

end Machine

/-! ## Bodies -/

def Machine.nextError (s : Machine σ κ) : ErrorId := ⟨s.errors.size⟩

/-- What the journal says when a piece of a body has returned. -/
def Journal.closing (m : ModuleId) (next : ErrorId) : Except Value (Execution κ) → Journal
  | .ok .completed => [.ended m]
  | .ok (.waiting ..) => [.waited m next]
  | .error e => [.threw m e]

/-- A piece of the body of a module makes its calls. Then the body has come to its end, or waits for
a promise. -/
structure Machine.Proceeds (journal : σ → Journal) (owner : κ → ModuleId) (reserved : Set PromiseId)
    (hosts : Set (Host σ κ)) (m : ModuleId) (s : Machine σ κ) (r : Except Value (Execution κ))
    (s' : Machine σ κ) : Prop where
  calls : ∃ s₁ host, Machine.Calls journal reserved hosts s s₁ ∧ s' = s₁.setHost host ∧
    journal host = journal s₁.host ++ Journal.closing m s₁.nextError r
  waits : ∀ p code, r = .ok (.waiting p code) → owner code = m ∧ s'.Made p

def Machine.Executes (journal : σ → Journal) (owner : κ → ModuleId) (reserved : Set PromiseId)
    (hosts : Set (Host σ κ)) (m : ModuleId) (s : Machine σ κ) (r : Except Value (Execution κ))
    (s' : Machine σ κ) : Prop :=
  ∃ host, journal host = journal s.host ++ [.started m s.outline] ∧
    (s.setHost host).Proceeds journal owner reserved hosts m r s'

/-- How the hosts conduct themselves. They note in the journal which modules they find or refuse and
how bodies run, their hooks make calls only, and a callback makes moves. -/
structure Conduct (journal : σ → Journal) (owner : κ → ModuleId) (reserved : Set PromiseId)
    (hosts : Set (Host σ κ)) : Prop where
  track : ∀ host ∈ hosts, ∀ p e h, journal (host.track p e h) = journal h
  resolve : ∀ host ∈ hosts, ∀ referrer request,
    Within (Machine.Calls journal reserved hosts) (host.resolve referrer request)
  found : ∀ host ∈ hosts, ∀ {referrer request s n s'},
    host.resolve referrer request s = some (.ok n, s') → s'.Has n ∧
      ∀ m, referrer = .module m → Entry.resolved m request n ∈ journal s'.host
  refused : ∀ host ∈ hosts, ∀ {m request s e s'},
    host.resolve (.module m) request s = some (.error e, s') →
      Entry.refused m request e ∈ journal s'.host
  exportedNames : ∀ host ∈ hosts, ∀ m,
    Within (Machine.Calls journal reserved hosts) (Act.ofRun (host.exportedNames m))
  resolveExport : ∀ host ∈ hosts, ∀ m name visited,
    Within (Machine.Calls journal reserved hosts) (host.resolveExport m name visited)
  linkLeaf : ∀ host ∈ hosts, ∀ m, Within (Machine.Calls journal reserved hosts) (host.linkLeaf m)
  initializeForeign : ∀ host ∈ hosts, ∀ m,
    Within (Machine.Calls journal reserved hosts) (host.initializeForeign m)
  instantiateForeign : ∀ host ∈ hosts, ∀ m,
    Within (Machine.Calls journal reserved hosts) (host.instantiateForeign m)
  prepare : ∀ host ∈ hosts, ∀ m, Within (Machine.Calls journal reserved hosts) (host.prepare m)
  execute : ∀ host ∈ hosts, ∀ {m s r s'}, host.execute m s = some (r, s') →
    s.Executes journal owner reserved hosts m r s'
  executeForeign : ∀ host ∈ hosts, ∀ {m s r s'}, host.executeForeign m s = some (r, s') →
    s.Executes journal owner reserved hosts m r s'
  evaluateLeaf : ∀ host ∈ hosts, ∀ {m s r s'}, host.evaluateLeaf m s = some (r, s') →
    s.Executes journal owner reserved hosts m (r.map fun _ => .completed) s'
  resume : ∀ host ∈ hosts, ∀ {code x s r s'}, host.resume code x s = some (r, s') →
    s.Proceeds journal owner reserved hosts (owner code) r s'
  call : ∀ host ∈ hosts, ∀ {code x s r s'}, host.call code x s = some (r, s') →
    ReflTransGen (Machine.Move journal reserved hosts) s s'

end ModuleGraph

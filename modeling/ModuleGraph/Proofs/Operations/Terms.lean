import ModuleGraph.Proofs.Along
import ModuleGraph.Proofs.Promises.Reactions

/-! # The terms of operations

Linking, evaluation, dynamic imports and jobs call the host, settle promises and change single
modules. They settle only promises that they have made or found in the machine, and evaluate only
modules that are linked or were requested by such. On which terms this is done is a parameter here:
a relation between machines that holds across each of these small changes, made on its terms, holds
across the operations. -/

namespace ModuleGraph

variable {σ κ α : Type}

def Module.SameText (x y : Module) : Prop := x.kind.SameText y.kind ∧ y.exports = x.exports

/-- A relation that holds across all calls of the host that operations make. -/
structure Hooks (host : Host σ κ) (R : Machine σ κ → Machine σ κ → Prop) : Prop where
  resolve : ∀ referrer specifier, Within R (host.resolve referrer specifier)
  prepare : ∀ m, Within R (host.prepare m)
  execute : ∀ m, Within R (host.execute m)
  resume : ∀ code settlement, Within R (host.resume code settlement)
  call : ∀ code settlement, Within R (host.call code settlement)
  linkLeaf : ∀ m, Within R (host.linkLeaf m)
  evaluateLeaf : ∀ m, Within R (host.evaluateLeaf m)
  initializeForeign : ∀ m, Within R (host.initializeForeign m)
  instantiateForeign : ∀ m, Within R (host.instantiateForeign m)
  executeForeign : ∀ m, Within R (host.executeForeign m)
  exportedNames : ∀ m, Within R (Act.ofRun (host.exportedNames m))
  resolveExport : ∀ m name visited, Within R (host.resolveExport m name visited)
  importRequested : ∀ referrer specifier ticket,
    Along R (host.importRequested referrer specifier ticket)
  metaProperties : ∀ m, Along R (host.metaProperties m)
  finishMeta : ∀ o m, Along R (host.finishMeta o m)

/-- The host without its callbacks, the one for new dynamic imports among them: none of them
returns. -/
def Host.withoutCallbacks (host : Host σ κ) : Host σ κ :=
  { host with
    call := fun _ _ => .ofRun .exhausted
    importRequested := fun _ _ _ => .exhausted }

/-- A relation that holds across the calls of the host that link and evaluate modules, that is all
but those of its callbacks. -/
abbrev Chores (host : Host σ κ) (R : Machine σ κ → Machine σ κ → Prop) : Prop :=
  Hooks host.withoutCallbacks R

namespace Hooks

variable {host : Host σ κ} {R R' : Machine σ κ → Machine σ κ → Prop}

theorem mono (h : Hooks host R) (hR : ∀ {s s'}, R s s' → R' s s') : Hooks host R' where
  resolve referrer specifier _ _ _ hrun := hR (h.resolve referrer specifier _ _ _ hrun)
  prepare m _ _ _ hrun := hR (h.prepare m _ _ _ hrun)
  execute m _ _ _ hrun := hR (h.execute m _ _ _ hrun)
  resume code settlement _ _ _ hrun := hR (h.resume code settlement _ _ _ hrun)
  call code settlement _ _ _ hrun := hR (h.call code settlement _ _ _ hrun)
  linkLeaf m _ _ _ hrun := hR (h.linkLeaf m _ _ _ hrun)
  evaluateLeaf m _ _ _ hrun := hR (h.evaluateLeaf m _ _ _ hrun)
  initializeForeign m _ _ _ hrun := hR (h.initializeForeign m _ _ _ hrun)
  instantiateForeign m _ _ _ hrun := hR (h.instantiateForeign m _ _ _ hrun)
  executeForeign m _ _ _ hrun := hR (h.executeForeign m _ _ _ hrun)
  exportedNames m _ _ _ hrun := hR (h.exportedNames m _ _ _ hrun)
  resolveExport m name visited _ _ _ hrun := hR (h.resolveExport m name visited _ _ _ hrun)
  importRequested referrer specifier ticket _ _ _ hrun :=
    hR (h.importRequested referrer specifier ticket _ _ _ hrun)
  metaProperties m _ _ _ hrun := hR (h.metaProperties m _ _ _ hrun)
  finishMeta o m _ _ _ hrun := hR (h.finishMeta o m _ _ _ hrun)

theorem asks (h : Hooks host R) (hR : Composes R) : Asks host R where
  toComposes := hR
  resolve m request := h.resolve (.module m) request
  exportedNames := h.exportedNames
  resolveExport := h.resolveExport

theorem chores (h : Hooks host R) : Chores host R :=
  { h with
    call := fun _ _ => Within.exhausted
    importRequested := fun _ _ _ _ _ _ hrun => nomatch hrun }

end Hooks

/-! ## Terms -/

/-- What an operation touches: a promise that it settles, a module that it evaluates, a request that
it follows, or a module that was found for a dynamic import. -/
inductive Subject where
  | promise (p : PromiseId)
  | module (m : ModuleId)
  | request (m : ModuleId) (specifier : String)
  | found (m : ModuleId)

/-- The terms on which operations run: what is known of the machine all the time, what they may
touch, and how the machine may change. -/
structure Terms (σ κ : Type) where
  known : Machine σ κ → Prop
  may : Machine σ κ → Subject → Prop
  change : Machine σ κ → Machine σ κ → Prop

/-- Nothing but objects, errors, scripts and the number of the next turn differs. -/
structure Machine.Incidental (s s' : Machine σ κ) : Prop where
  modules : s'.modules = s.modules
  promises : s'.promises = s.promises
  reactions : s'.reactions = s.reactions
  joins : s'.joins = s.joins
  imports : s'.imports = s.imports
  jobs : s'.jobs = s.jobs
  unhandled : s'.unhandled = s.unhandled
  host : s'.host = s.host

def Handler.canThrow : Handler κ → Bool
  | .passOn | .callback _ | .imported _ => true
  | .bodyEnded _ | .resumeBody .. | .joined .. => false

/-- A reaction that belongs neither to a promise that follows another one nor to a joint wait. If
its handler may throw there is a capability for what it throws. -/
structure Reaction.IsPlain (reaction : Reaction κ) : Prop where
  apart : reaction.handler ≠ .passOn
  alone : ∀ j k, reaction.handler ≠ .joined j k
  guarded : reaction.capability = none → reaction.handler.canThrow = false

namespace Terms

def plain (R : Machine σ κ → Machine σ κ → Prop) : Terms σ κ := ⟨fun _ => True, fun _ _ => True, R⟩

variable (w : Terms σ κ)

structure Allows (s : Machine σ κ) (c c' : Cyclic) : Prop where
  requested : c'.requested = c.requested
  status : c'.status = c.status ∨ c'.status.IsLinked
  capability : ∀ d, c'.capability = some d → c.capability = some d ∨ w.may s (.promise d.promise)
  root : ∀ m, c'.root = some m → c.root = some m ∨ w.may s (.module m)
  parents : ∀ m ∈ c'.parents, m ∈ c.parents ∨ w.may s (.module m)

def Admits (s : Machine σ κ) : Handler κ → Prop
  | .bodyEnded m => w.may s (.module m)
  | .resumeBody _ c _ => w.may s (.promise c.promise)
  | .joined j _ => w.may s (.promise (s.join j).capability.promise)
  | .passOn | .callback _ | .imported _ => True

def Stacked (t : Traversal) (s : Machine σ κ) : Prop := ∀ x ∈ t.stack, w.may s (.module x)

variable {w}

/-- A change of other fields than those that lead to other modules and to promises. -/
theorem Allows.of_eq {s : Machine σ κ} {c c' : Cyclic} (hrequested : c'.requested = c.requested)
    (hstatus : c'.status = c.status ∨ c'.status.IsLinked)
    (hcapability : c'.capability = c.capability) (hroot : c'.root = c.root)
    (hparents : c'.parents = c.parents) : w.Allows s c c' where
  requested := hrequested
  status := hstatus
  capability _ hd := .inl (hcapability ▸ hd)
  root _ hm := .inl (hroot ▸ hm)
  parents _ hm := .inl (hparents ▸ hm)

end Terms

namespace ModuleKind

variable {p : PromiseId} {f : ModuleKind → ModuleKind}
variable (hleaf : ∀ state, f (.leaf state) = .leaf (.evaluated p))
variable (hother : ∀ k : ModuleKind, k.cyclic?.isSome → f k = k)
include hleaf hother

/-- A leaf that keeps its answer has no cyclic fields, neither before nor after. -/
theorem cyclic?_answered (k : ModuleKind) : (f k).cyclic? = k.cyclic? := by
  cases k with
  | leaf state => rw [hleaf]; rfl
  | source r env c | foreign i c => rw [hother _ rfl]

theorem sameText_answered (k : ModuleKind) : k.SameText (f k) := by
  refine ⟨?_, congrArg _ (cyclic?_answered hleaf hother k)⟩
  cases k with
  | leaf state => rw [hleaf]; rfl
  | source r env c | foreign i c => rw [hother _ rfl]

theorem isLinked_answered {k : ModuleKind} (h : k.status.IsLinked) : (f k).status.IsLinked := by
  cases k with
  | leaf state =>
    rw [hleaf]
    trivial
  | source r env c | foreign i c => rwa [hother _ rfl]

end ModuleKind

/-- Terms that hold across the small changes that operations are made of: calls of the host and for
the keys of namespaces, what happens to promises, and updates of single modules. -/
structure Carries (host : Host σ κ) (w : Terms σ κ) : Prop
    extends Composes w.change where
  chores : Chores host w.change
  /-- What is known may be used. -/
  assume : ∀ {s s'}, (w.known s → w.change s s') → w.change s s'
  stays : ∀ {s s'}, w.known s → w.change s s' → w.known s' ∧ ∀ x, w.may s x → w.may s' x
  fresh : ∀ {s} state, w.known s → w.may (s.newPromise state).2 (.promise (s.newPromise state).1)
  answer : ∀ {s m c}, w.known s → (s.cyclic m).capability = some c → w.may s (.promise c.promise)
  leafAnswer : ∀ {s m p}, w.known s → (s.module m).kind = .leaf (.evaluated p) →
    w.may s (.promise p)
  root : ∀ {s m}, w.known s → w.may s (.module m) → w.may s (.module (s.cycleRoot m))
  parent : ∀ {s m x}, w.known s → x ∈ (s.cyclic m).parents → w.may s (.module x)
  linked : ∀ {s m}, w.known s → refusal? (s.status m) = none → w.may s (.module m)
  asked : ∀ {s m}, w.known s → w.may s (.module m) → ∀ r ∈ s.requested m, w.may s (.request m r)
  answered : ∀ {s m r n s'}, w.known s → w.may s (.request m r) →
    host.resolve (.module m) r s = some (.ok n, s') → w.may s' (.module n)
  keys : ∀ m, Within w.change (host.namespaceKeys m)
  incidental : ∀ {s s'}, s.Incidental s' → w.change s s'
  newPromise : ∀ s {state : PromiseState}, state.IsFresh → w.change s (s.newPromise state).2
  settle : ∀ s {c} result, w.may s (.promise c.promise) → w.change s (s.settle host.track c result)
  attach : ∀ s p {reaction : Reaction κ}, w.Admits s reaction.handler →
    reaction.IsPlain → (∀ c, reaction.capability = some c → w.may s (.promise c.promise)) →
      w.change s (s.attach host.track p reaction)
  markHandled : ∀ s p, w.change s (s.markHandled host.track p)
  openImport : ∀ s referrer specifier, w.change s
    (s.newCapability.2.newImport ⟨referrer, specifier, s.newCapability.1⟩).2
  cyclic : ∀ s {m f}, w.may s (.module m) → (∀ c, w.Allows s c (f c)) →
    w.change s (s.updateCyclic m f)
  leaf : ∀ s {m p} {f : ModuleKind → ModuleKind}, w.may s (.module m) → w.may s (.promise p) →
    (∀ state, f (.leaf state) = .leaf (.evaluated p)) →
    (∀ k : ModuleKind, k.cyclic?.isSome → f k = k) → w.change s (s.updateKind m f)
  update : ∀ s m {f : Module → Module}, (∀ x, (f x).kind = x.kind ∧ (f x).exports = x.exports) →
    w.change s (s.updateModule m f)

namespace Carries

variable {host : Host σ κ} {w : Terms σ κ} {s s' : Machine σ κ}
variable {m : ModuleId} {c : Capability}

theorem asks (h : Carries host w) : Asks host w.change where
  toComposes := h.toComposes
  resolve m request := h.chores.resolve (.module m) request
  exportedNames := h.chores.exportedNames
  resolveExport := h.chores.resolveExport

theorem namespaceOf (h : Carries host w) (m : ModuleId) : Within w.change (host.namespaceOf m) :=
  h.asks.namespaceOf h.keys m

theorem known (h : Carries host w) (hs : w.known s) (hc : w.change s s') : w.known s' :=
  (h.stays hs hc).1

theorem may (h : Carries host w) (hs : w.known s) (hc : w.change s s') {x : Subject}
    (hx : w.may s x) : w.may s' x := (h.stays hs hc).2 x hx

theorem fail (h : Carries host w) (kind : ErrorKind) (message : String) :
    Within w.change (Act.fail kind message : Act σ κ α) := by
  intro s r s' hrun
  cases hrun
  exact h.incidental ⟨rfl, rfl, rfl, rfl, rfl, rfl, rfl, rfl⟩

theorem resolve (h : Carries host w) (s : Machine σ κ) (v : Value)
    (hc : w.may s (.promise c.promise)) : w.change s (s.resolve host.track c v) :=
  h.settle s (.ok v) hc

theorem reject (h : Carries host w) (s : Machine σ κ) (e : Value)
    (hc : w.may s (.promise c.promise)) : w.change s (s.reject host.track c e) :=
  h.settle s (.error e) hc

theorem newCapability (h : Carries host w) (hs : w.known s) :
    w.change s s.newCapability.2 ∧ w.known s.newCapability.2 ∧
      w.may s.newCapability.2 (.promise s.newCapability.1.promise) := by
  have hnew : w.change s s.newCapability.2 := h.newPromise s ⟨rfl, rfl⟩
  exact ⟨hnew, h.known hs hnew, h.fresh _ hs⟩

theorem newRejected (h : Carries host w) (hs : w.known s) (e : Value) :
    w.change s (s.newRejected host.track e).2 ∧
      w.may (s.newRejected host.track e).2 (.promise (s.newRejected host.track e).1) := by
  obtain ⟨hnew, hs₁, hc⟩ := h.newCapability hs
  have hreject := h.reject s.newCapability.2 e hc
  exact ⟨h.trans hnew hreject, h.may hs₁ hreject hc⟩

/-- The same update of several modules that may be touched. -/
theorem cyclics (h : Carries host w) {f : Cyclic → Cyclic}
    (hf : ∀ (s : Machine σ κ) c, w.Allows s c (f c)) (xs : List ModuleId) :
    ∀ s, (∀ x ∈ xs, w.may s (.module x)) →
      w.change s (xs.foldl (fun s x => s.updateCyclic x f) s) := by
  induction xs with
  | nil => exact fun s _ => h.refl s
  | cons x rest ih =>
    intro s hxs
    refine h.assume fun hs => ?_
    have hx := h.cyclic s (hxs x (List.mem_cons_self ..)) (hf s)
    exact h.trans hx (ih _ fun y hy => h.may hs hx (hxs y (List.mem_cons_of_mem _ hy)))

end Carries

end ModuleGraph

import ModuleGraph.Proofs.Operations.Linking
import ModuleGraph.Proofs.Promises.Wired

/-! # Runs with dynamic imports

The code of a host makes promises and settles those that it owns, attaches callbacks, starts
dynamic imports, links and evaluates. It does not settle the promises that dynamic imports gave it.
Between jobs, or in a callback, the host takes turns: it also finishes imports and runs jobs, in any
order. -/

namespace ModuleGraph

open Relation

variable {σ κ : Type}

namespace Machine

def openImport (s : Machine σ κ) (referrer : Referrer) (specifier : String) : Machine σ κ :=
  (s.newCapability.2.newImport ⟨referrer, specifier, s.newCapability.1⟩).2

/-- A module answers with the promise, for the evaluation of its cycle or of the leaf that it is. -/
def AnswersWith (s : Machine σ κ) (m : ModuleId) (p : PromiseId) : Prop :=
  (∃ c, (s.cyclic m).capability = some c ∧ c.promise = p) ∨
    (s.module m).kind = .leaf (.evaluated p)

end Machine

def ModuleKind.AnswersWith (k : ModuleKind) (p : PromiseId) : Prop :=
  (∃ c d, k.cyclic? = some c ∧ c.capability = some d ∧ d.promise = p) ∨ k = .leaf (.evaluated p)

namespace ModuleKind

variable {p : PromiseId} {X : PromiseId → Prop}

theorem answersWith_updateCyclic {f : Cyclic → Cyclic}
    (hf : ∀ c d, (f c).capability = some d → c.capability = some d ∨ X d.promise) {k : ModuleKind}
    (h : (k.updateCyclic f).AnswersWith p) : k.AnswersWith p ∨ X p := by
  obtain ⟨c, d, hc, hd, rfl⟩ | hk := h
  · rw [cyclic?_updateCyclic, Option.map_eq_some_iff] at hc
    obtain ⟨c, hc, rfl⟩ := hc
    exact (hf c d hd).imp (fun hd => .inl ⟨c, d, hc, hd, rfl⟩) id
  · cases k <;> cases hk
    exact .inl (.inr rfl)

theorem SameLeads.answersWith {k k' : ModuleKind} (h : k.SameLeads k') (hp : k'.AnswersWith p) :
    k.AnswersWith p := by
  obtain ⟨c, d, hc, hd, rfl⟩ | hk := hp
  · have hleads := h.leads
    rw [hc, Option.map_some] at hleads
    obtain ⟨c', hc', e⟩ := Option.map_eq_some_iff.1 hleads.symm
    have hcapability : c'.capability = c.capability := congrArg (fun x => x.2.1) e
    exact .inl ⟨c', d, hc', hcapability.trans hd, rfl⟩
  · exact .inr (h.leaf p hk)

theorem answersWith_evaluated {q : PromiseId} {f : ModuleKind → ModuleKind}
    (hleaf : ∀ state, f (.leaf state) = .leaf (.evaluated q))
    (hf : ∀ k : ModuleKind, k.cyclic?.isSome → f k = k) {k : ModuleKind}
    (h : (f k).AnswersWith p) : k.AnswersWith p ∨ p = q := by
  cases k with
  | leaf state =>
    rw [hleaf] at h
    obtain ⟨c, d, hc, -⟩ | hk := h
    · cases hc
    · cases hk
      exact .inr rfl
  | source r env c | foreign i c =>
    rw [hf _ rfl] at h
    exact .inl h

end ModuleKind

namespace Machine

theorem answersWith_iff {s : Machine σ κ} {m : ModuleId} {p : PromiseId} :
    s.AnswersWith m p ↔ (s.module m).kind.AnswersWith p := by
  refine or_congr_left ⟨?_, ?_⟩
  · rintro ⟨d, hd, hp⟩
    rw [cyclic, cyclic?] at hd
    cases hk : (s.module m).kind.cyclic? with
    | some c => exact ⟨c, d, rfl, by rwa [hk] at hd, hp⟩
    | none =>
      rw [hk] at hd
      cases hd
  · rintro ⟨c, d, hc, hd, hp⟩
    exact ⟨d, by rw [cyclic, cyclic?, hc]; exact hd, hp⟩

theorem answersWith_updateModule {s : Machine σ κ} {m n : ModuleId} {p : PromiseId}
    {f : Module → Module} {X : Prop}
    (hf : ∀ x : Module, (f x).kind.AnswersWith p → x.kind.AnswersWith p ∨ X)
    (h : (s.updateModule m f).AnswersWith n p) : s.AnswersWith n p ∨ X := by
  by_cases hm : s.Has m
  · rw [answersWith_iff, module_updateModule s m n f hm] at h
    rw [answersWith_iff]
    split at h
    · rename_i e
      subst e
      exact hf _ h
    · exact .inl h
  · rw [updateModule_of_not_has f hm] at h
    exact .inl h

/-- Promises, reactions and jobs are as they were, and neither a module nor the host has come by
another promise. Modules, objects, errors and scripts may change, and so may what the host keeps. -/
structure Apart (owned : σ → PromiseId → Prop) (s s' : Machine σ κ) : Prop where
  promises : s'.promises = s.promises
  reactions : s'.reactions = s.reactions
  joins : s'.joins = s.joins
  imports : s'.imports = s.imports
  jobs : s'.jobs = s.jobs
  answers : ∀ m p, s'.AnswersWith m p → s.AnswersWith m p
  owned : ∀ p, owned s'.host p → owned s.host p

end Machine

/-- What is noted of a rejected promise gives the host no promise that it could settle. -/
def Tracker.Discreet (owned : σ → PromiseId → Prop) (track : Tracker σ) : Prop :=
  ∀ p e h q, owned (track p e h) q → owned h q

namespace Machine

/-- One thing that the code of a host does. Where it links and evaluates modules, it does so by one
of `hosts`. -/
inductive Deed (hosts : Set (Host σ κ)) (owned : σ → PromiseId → Prop) :
    Machine σ κ → Machine σ κ → Prop
  | apart {s s' : Machine σ κ} : s.Apart owned s' → Deed hosts owned s s'
  /-- Makes a promise, which the host may own from then on. -/
  | newPromise (s : Machine σ κ) {state : PromiseState} (h : σ) : state.reactions = [] →
      (∀ p, owned h p → owned s.host p ∨ p = s.nextPromise) →
        Deed hosts owned s ((s.newPromise state).2.setHost h)
  /-- Makes a promise that is settled, or that follows another one. -/
  | newSettled (s : Machine σ κ) {track : Tracker σ} (result : Except Value Value) :
      track.Discreet owned →
        Deed hosts owned s (s.newCapability.2.settle track s.newCapability.1 result)
  | settle (s : Machine σ κ) {track : Tracker σ} {c : Capability} (result : Except Value Value) :
      track.Discreet owned → owned s.host c.promise →
        Deed hosts owned s (s.settle track c result)
  | thenCall (s : Machine σ κ) {track : Tracker σ} (p : PromiseId) (code : κ) :
      track.Discreet owned → Deed hosts owned s (s.thenCall track p code).2
  | all (s : Machine σ κ) {track : Tracker σ} (promises : List PromiseId) :
      track.Discreet owned → Deed hosts owned s (s.all track promises).2
  /-- Starts a dynamic import: makes its promise and its ticket. -/
  | openImport (s : Machine σ κ) (referrer : Referrer) (specifier : String) :
      Deed hosts owned s (s.openImport referrer specifier)
  | queueImport (s : Machine σ κ) (referrer : Referrer) (specifier : String) (ticket : TicketId) :
      Deed hosts owned s (s.enqueue (.finishImport referrer specifier ticket))
  | link {s s' : Machine σ κ} {host m result} : host ∈ hosts →
      host.link m s = some (result, s') → Deed hosts owned s s'
  | evaluate {s s' : Machine σ κ} {host m p} : host ∈ hosts →
      host.evaluate m s = some (p, s') → Deed hosts owned s s'

abbrev Deeds (hosts : Set (Host σ κ)) (owned : σ → PromiseId → Prop) :
    Machine σ κ → Machine σ κ → Prop := ReflTransGen (Deed hosts owned)

end Machine

theorem Machine.Deed.mono {hosts hosts' : Set (Host σ κ)} {owned : σ → PromiseId → Prop}
    {s s' : Machine σ κ} (hsub : ∀ host ∈ hosts, host ∈ hosts') (hd : s.Deed hosts owned s') :
    s.Deed hosts' owned s' := by
  cases hd with
  | apart h => exact .apart h
  | newPromise h hst howned => exact .newPromise s h hst howned
  | newSettled result ht => exact .newSettled s result ht
  | settle result ht hc => exact .settle s result ht hc
  | thenCall p code ht => exact .thenCall s p code ht
  | all promises ht => exact .all s promises ht
  | openImport referrer specifier => exact .openImport s referrer specifier
  | queueImport referrer specifier ticket => exact .queueImport s referrer specifier ticket
  | link hhost hrun => exact .link (hsub _ hhost) hrun
  | evaluate hhost hrun => exact .evaluate (hsub _ hhost) hrun

/-- A machine in a run, with the capabilities that the callbacks that are running will settle, the
innermost one first. -/
structure Scene (σ κ : Type) where
  machine : Machine σ κ
  calls : List (Option Capability)

/-- One turn of a run. A job that calls a callback, and one that finishes a dynamic import, are seen
step by step: the job is entered, what it does are turns of their own, and when the callback has
returned its capability is settled with the result. -/
inductive Turn (hosts : Set (Host σ κ)) (owned : σ → PromiseId → Prop) :
    Scene σ κ → Scene σ κ → Prop
  | deed {s s' : Machine σ κ} {calls} : s.Deed hosts owned s' →
      Turn hosts owned ⟨s, calls⟩ ⟨s', calls⟩
  | finishImport {s s' : Machine σ κ} {calls host ticket found} : host ∈ hosts →
      host.finishImport ticket found s = some ((), s') → Turn hosts owned ⟨s, calls⟩ ⟨s', calls⟩
  | job {s s' : Machine σ κ} {calls host result} : host ∈ hosts →
      (∀ r x code, s.jobs.head? = some (.react r x) → s.handler? r ≠ some (.callback code)) →
      (∀ referrer specifier ticket,
        s.jobs.head? ≠ some (.finishImport referrer specifier ticket)) →
      runNextJob host s = some (result, s') → Turn hosts owned ⟨s, calls⟩ ⟨s', calls⟩
  | enter {s : Machine σ κ} {calls r x code capability} : s.jobs.head? = some (.react r x) →
      s.reaction? r = some ⟨.callback code, capability⟩ →
        Turn hosts owned ⟨s, calls⟩ ⟨s.takeFirst r, capability :: calls⟩
  | leave {s : Machine σ κ} {calls c} {track : Tracker σ} (result : Except Value Value) :
      track.Discreet owned → Turn hosts owned ⟨s, some c :: calls⟩ ⟨s.settle track c result, calls⟩
  | drop {s : Machine σ κ} {calls} : Turn hosts owned ⟨s, none :: calls⟩ ⟨s, calls⟩
  | enterImport {s : Machine σ κ} {calls referrer specifier ticket} :
      s.jobs.head? = some (.finishImport referrer specifier ticket) →
        Turn hosts owned ⟨s, calls⟩ ⟨{ s with jobs := s.jobs.tail }, calls⟩

abbrev Turns (hosts : Set (Host σ κ)) (owned : σ → PromiseId → Prop) :
    Scene σ κ → Scene σ κ → Prop := ReflTransGen (Turn hosts owned)

/-- The scenes of a run. In the beginning the host owns no promise. -/
def Scene.Reached (hosts : Set (Host σ κ)) (owned : σ → PromiseId → Prop) (c : Scene σ κ) : Prop :=
  ∃ h, (∀ p, ¬owned h p) ∧ Turns hosts owned ⟨.initial h, []⟩ c

/-- How hosts conduct themselves: all their code but callbacks does deeds only, so that no body,
link or evaluation finishes an import or runs jobs. A callback takes turns, and so does the host
when it is told of a new dynamic import. Code that links or evaluates modules in the middle of a
link or an evaluation does so by a host of smaller rank: a host that calls itself is the limit of
such ones, and a run of it that ends is a run of one of them. -/
structure Observes (hosts : Set (Host σ κ)) (rank : Host σ κ → Nat)
    (owned : σ → PromiseId → Prop) : Prop where
  track : ∀ host ∈ hosts, host.track.Discreet owned
  chores : ∀ host ∈ hosts,
    Chores host (Machine.Deeds {below | below ∈ hosts ∧ rank below < rank host} owned)
  call : ∀ host ∈ hosts, ∀ {code x s r s'} calls, host.call code x s = some (r, s') →
    Turns hosts owned ⟨s, calls⟩ ⟨s', calls⟩
  requested : ∀ host ∈ hosts, ∀ {referrer specifier ticket s u s'} calls,
    host.importRequested referrer specifier ticket s = some (u, s') →
      Turns hosts owned ⟨s, calls⟩ ⟨s', calls⟩

end ModuleGraph

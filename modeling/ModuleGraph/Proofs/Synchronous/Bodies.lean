import ModuleGraph.Proofs.Runs.Leaves
import ModuleGraph.Proofs.Synchronous.Walk

/-! # Bodies of synchronous modules

A body leaves the fields of all modules alone, and so does whatever else the host does on its own.
The journal tells of a body what a walk notes. If the host queues no jobs, then neither does a
body, nor does the evaluation of a leaf. -/

namespace ModuleGraph

open Relation

variable {σ κ : Type} {journal : σ → Journal} {owner : κ → ModuleId} {reserved : Set PromiseId}
variable {hosts : Set (Host σ κ)} {host : Host σ κ}

namespace Machine

variable {s s' s'' : Machine σ κ} {m x : ModuleId} {p : PromiseId}

/-! ## What stays -/

structure Spares (s s' : Machine σ κ) : Prop where
  has : ∀ x, s.Has x → s'.Has x
  cyclic? : ∀ x, s.Has x → s'.cyclic? x = s.cyclic? x
  leaf? : ∀ x, s.Has x → (s'.module x).kind.leaf? = (s.module x).kind.leaf?
  settled : ∀ p y, (s.promise p).settlement? = some y → (s'.promise p).settlement? = some y

namespace Spares

theorem refl (s : Machine σ κ) : s.Spares s :=
  ⟨fun _ => id, fun _ _ => rfl, fun _ _ => rfl, fun _ _ => id⟩

theorem trans (h : s.Spares s') (h' : s'.Spares s'') : s.Spares s'' where
  has x hx := h'.has x (h.has x hx)
  cyclic? x hx := (h'.cyclic? x (h.has x hx)).trans (h.cyclic? x hx)
  leaf? x hx := (h'.leaf? x (h.has x hx)).trans (h.leaf? x hx)
  settled p y hp := h'.settled p y (h.settled p y hp)

theorem of_modules (hm : s'.modules = s.modules)
    (hp : ∀ p y, (s.promise p).settlement? = some y → (s'.promise p).settlement? = some y) :
    s.Spares s' where
  has x hx := by rwa [Has, hm]
  cyclic? x _ := by rw [cyclic?_eq, module, hm]; rfl
  leaf? x _ := by rw [module, hm]; rfl
  settled := hp

theorem of_calls (hc : Conduct journal owner reserved hosts)
    (h : Calls journal reserved hosts s s') : s.Spares s' := by
  induction h with
  | refl => exact .refl s
  | tail _ hcall ih =>
    refine ih.trans ?_
    obtain he | ⟨hb, hp⟩ := hcall.elsewhere_or_beside hc.track
    · exact ⟨he.has, he.cyclic, he.leaf, fun p y hp => by rwa [settlement?_of_phase (he.phase p)]⟩
    · exact .of_modules hb.modules hp

end Spares

structure Silent (p : PromiseId) (s s' : Machine σ κ) : Prop where
  jobs : s'.jobs = s.jobs
  held : ∀ r, s'.Holds p r → s.Holds p r

namespace Silent

theorem refl (p : PromiseId) (s : Machine σ κ) : s.Silent p s := ⟨rfl, fun _ => id⟩

theorem trans (h : s.Silent p s') (h' : s'.Silent p s'') : s.Silent p s'' :=
  ⟨h'.jobs.trans h.jobs, fun r hr => h.held r (h'.held r hr)⟩

theorem composes (p : PromiseId) : Composes (Silent (σ := σ) (κ := κ) p) := ⟨refl p, trans⟩

theorem of_eq (hj : s'.jobs = s.jobs) (hp : s'.promises = s.promises) : s.Silent p s' :=
  ⟨hj, fun r hr => by rwa [Holds, promise, hp] at hr⟩

theorem newPromise (s : Machine σ κ) {st : PromiseState} (hst : st.reactions = []) :
    s.Silent p (s.newPromise st).2 := by
  refine ⟨rfl, fun r hr => ?_⟩
  rw [Holds, promise_newPromise] at hr
  split at hr
  · rw [hst] at hr
    cases hr
  · exact hr

/-- A promise that is rejected from the start has no reactions. -/
theorem newRejected (hc : Conduct journal owner reserved hosts) (hh : host ∈ hosts)
    (s : Machine σ κ) (e : Value) : s.Silent p (s.newRejected host.track e).2 := by
  have hend := reject_ended s.newCapability.2 (hc.track host hh) ⟨s.nextPromise, true⟩ (e := e)
    (not_isSpent_of_undecided (undecided_newCapability s))
  have hnew : s.Silent p s.newCapability.2 := .newPromise s rfl
  refine hnew.trans ⟨?_, fun r hr => ?_⟩
  · refine hend.jobs.trans ?_
    rw [show s.newCapability.2.promise s.nextPromise = .pending [] false from
      (promise_newPromise s _ _).trans (if_pos rfl)]
    exact List.append_nil _
  · exact ((hend.held p r).1 hr).1

theorem of_unmoved (hu : s.Unmoved journal s') : s.Silent p s' :=
  ⟨hu.jobs, fun r hr => by rwa [Holds, hu.held] at hr⟩

end Silent

end Machine

namespace Settlement

def ofResult : Except Value Unit → Settlement
  | .ok () => .fulfilled .undefined
  | .error e => .rejected e

def result : Settlement → Except Value Unit
  | .fulfilled _ => .ok ()
  | .rejected e => .error e

end Settlement

/-- Resolution and bodies queue no jobs and attach nothing to the promise. -/
structure Host.Abstains (host : Host σ κ) (p : PromiseId) : Prop where
  resolve : ∀ referrer request, Within (Machine.Silent p) (host.resolve referrer request)
  execute : ∀ m, Within (Machine.Silent p) (host.execute m)
  executeForeign : ∀ m, Within (Machine.Silent p) (host.executeForeign m)
  evaluateLeaf : ∀ m, Within (Machine.Silent p) (host.evaluateLeaf m)

namespace Machine

variable {s s' s'' : Machine σ κ} {m x : ModuleId} {p : PromiseId}

/-! ## Bodies -/

theorem Executes.spares (hc : Conduct journal owner reserved hosts)
    {r : Except Value (Execution κ)} (he : s.Executes journal owner reserved hosts m r s') :
    s.Spares s' := by
  obtain ⟨h, -, ⟨s₁, h', hcalls, rfl, -⟩, -⟩ := he
  have hset : ∀ (s : Machine σ κ) h, s.Spares (s.setHost h) := fun s h =>
    .of_modules rfl fun _ _ => id
  exact (hset s h).trans ((Spares.of_calls hc hcalls).trans (hset s₁ h'))

/-- A module that has what it needs runs the body that the host gives. -/
theorem runBody_executes (hc : Conduct journal owner reserved hosts) (hh : host ∈ hosts)
    (hm : s.isCyclic m) (hk : (s.module m).kind.IsRunnable) {r : Except Value (Execution κ)}
    (hrun : runBody host m s = some (r, s')) :
    s.Executes journal owner reserved hosts m r s' ∧ (host.Abstains p → s.Silent p s') := by
  rw [runBody, Act.view_bind] at hrun
  rw [isCyclic, cyclic?_eq] at hm
  cases hkind : (s.module m).kind with
  | source record env c =>
    rw [hkind] at hrun
    exact ⟨hc.execute host hh hrun, fun ha => ha.execute m _ _ _ hrun⟩
  | foreign i c =>
    rw [hkind] at hrun hk
    cases (hk : i = true)
    exact ⟨hc.executeForeign host hh hrun, fun ha => ha.executeForeign m _ _ _ hrun⟩
  | leaf state =>
    rw [hkind] at hm
    cases hm

/-- What running the body of a module without top-level await comes to. -/
theorem runSyncBody_runs (hc : Conduct journal owner reserved hosts) (hh : host ∈ hosts)
    (hm : s.isCyclic m) (hk : (s.module m).kind.IsRunnable) {result : Except Value Unit}
    (hrun : runSyncBody host m s = some (result, s')) :
    (∃ k, journal s'.host = journal s.host ++ k ∧ Runs m k result) ∧ s.Spares s' ∧
      (host.Abstains p → s.Silent p s') := by
  rw [runSyncBody, throwing_bind] at hrun
  obtain ⟨execution, s₁, h₁, h₂⟩ | ⟨e, h₁, rfl⟩ := hrun
  · obtain ⟨he, hsilent⟩ := runBody_executes (p := p) hc hh hm hk h₁
    obtain ⟨k, hk, hj⟩ := he.noted hc
    cases execution with
    | completed =>
      cases h₂
      exact ⟨⟨_, hj, .completes hk⟩, he.spares hc, hsilent⟩
    | waiting q code =>
      cases h₂
      exact ⟨⟨_, hj, .waits hk⟩, (he.spares hc).trans (.of_modules rfl fun _ _ => id),
        fun ha => (hsilent ha).trans (.of_eq rfl rfl)⟩
  · obtain ⟨he, hsilent⟩ := runBody_executes (p := p) hc hh hm hk h₁
    obtain ⟨k, hk, hj⟩ := he.noted hc
    exact ⟨⟨_, hj, .throws hk⟩, he.spares hc, hsilent⟩

/-! ## Leaves -/

/-- A leaf was evaluated for the first time: what its body has come to is told by the promise that
the leaf keeps from then on. -/
structure LeafRuns (journal : σ → Journal) (host : Host σ κ) (m : ModuleId) (p : PromiseId)
    (s : Machine σ κ) (q : PromiseId) (r : Except Value Unit) (s₁ : Machine σ κ) : Prop where
  noted : ∃ k, journal s₁.host = journal s.host ++ k ∧ Runs m k r
  spares : s.Spares s₁
  told : (s₁.promise q).settlement? = some (.ofResult r)
  linked : (s₁.module m).kind.leaf? = some .linked
  silent : host.Abstains p → s.Silent p s₁

theorem evaluateLeaf_runs (hc : Conduct journal owner reserved hosts) (hh : host ∈ hosts)
    (hm : (s.module m).kind.leaf? = some .linked) {q : PromiseId}
    (hrun : evaluateLeaf host m s = some (q, s')) :
    ∃ r s₁, s.LeafRuns journal host m p q r s₁ ∧ s' = s₁.keepPromise m q := by
  have hhas := has_of_leaf hm
  rw [evaluateLeaf, Run.view_bind, ModuleKind.eq_of_leaf? hm] at hrun
  obtain ⟨r, s₁, h₁, hrun⟩ := Run.bind_eq_some.1 hrun
  have he := hc.evaluateLeaf host hh h₁
  have hsilent : host.Abstains p → s.Silent p s₁ := fun ha => ha.evaluateLeaf m _ _ _ h₁
  obtain ⟨k, hk, hj⟩ := he.noted hc
  have hsp := he.spares hc
  have hpush : ∀ st, s₁.Spares (s₁.newPromise st).2 := fun st => .of_modules rfl fun p y hp => by
    rw [promise_newPromise, if_neg]
    · exact hp
    · refine ne_nextPromise (made_of_resolved fun hu => ?_)
      rw [← PromiseState.phase_snd, hu] at hp
      cases hp
  cases r with
  | ok u =>
    cases hrun
    have hsp' := hsp.trans (hpush (.fulfilled .undefined))
    refine ⟨.ok (), (s₁.newFulfilled .undefined).2, ⟨⟨_, hj, .completes hk⟩, hsp', ?_,
      (hsp'.leaf? m hhas).trans hm, fun ha => (hsilent ha).trans (.newPromise s₁ rfl)⟩, rfl⟩
    exact congrArg PromiseState.settlement? (promise_newPromise_self s₁ _)
  | error e =>
    cases hrun
    have hend := reject_settles s₁.newCapability.2 (hc.track host hh) ⟨s₁.nextPromise, true⟩ e
    have hsp' : s.Spares (s₁.newRejected host.track e).2 :=
      (hsp.trans (hpush (.pending [] false))).trans
        (.of_modules hend.beside.modules fun p y hp => hend.settlement? hp)
    have hj' := (hend.beside.journal.trans rfl).trans hj
    refine ⟨.error e, (s₁.newRejected host.track e).2, ⟨⟨_, hj', .throws hk⟩, hsp',
      settlement?_newRejected hc hh s₁ e, (hsp'.leaf? m hhas).trans hm, fun ha =>
        (hsilent ha).trans (.newRejected hc hh s₁ e)⟩, rfl⟩

end Machine

end ModuleGraph

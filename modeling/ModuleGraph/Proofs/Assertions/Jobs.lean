import ModuleGraph.Proofs.Assertions.Linking
import ModuleGraph.Proofs.Assertions.Waiting
import ModuleGraph.Proofs.Runs.Rehearsal

/-! # The assertions of a run

Whatever a run does between two jobs, and each job, goes as if nothing was asserted. The only way to
make an assertion fail is to answer a request in two ways. -/

namespace ModuleGraph

open Relation

variable {σ κ : Type}

namespace Checked

variable (host : Host σ κ)

/-! ## Dynamic imports -/

def loadImported (capability : Capability) (m : ModuleId) : Trial σ κ Unit := do
  match ← link host m with
  | .error e =>
    let v ← Trial.ofRun e.toValue
    Trial.update fun s => s.reject host.track capability v
  | .ok () =>
    let p ← evaluate host m
    Trial.update fun s => s.attach host.track p ⟨.imported m, some capability⟩

def finishImport (ticket : TicketId) (found : Except Value ModuleId) : Trial σ κ Unit := do
  match ← Trial.ofRun (Run.make fun s => s.takeImport ticket) with
  | none => pure ()
  | some i =>
    match found with
    | .error e => Trial.update fun s => s.reject host.track i.capability e
    | .ok m => loadImported host i.capability m

/-! ## Jobs -/

def runHandler (handler : Handler κ) (settlement : Settlement) : TrialAct σ κ Value :=
  match handler, settlement with
  | .bodyEnded m, .fulfilled _ => do
    TrialAct.ofTrial (bodySucceeded host m)
    pure .undefined
  | .bodyEnded m, .rejected e => do
    TrialAct.ofTrial (bodyFailed host m e)
    pure .undefined
  | handler, settlement => TrialAct.ofAct (ModuleGraph.runHandler host handler settlement)

def runJob (job : Job) : TrialAct σ κ Unit :=
  match job with
  | .adopt promise followed => TrialAct.ofAct (ModuleGraph.runJob host (.adopt promise followed))
  | .finishImport referrer specifier ticket => do
    let found ← TrialAct.ofTrial (Trial.ofRun (host.resolve referrer specifier).outcome)
    TrialAct.ofTrial (finishImport host ticket found)
  | .react r settlement => do
    match ← TrialAct.ofTrial (Trial.ofRun (Run.make fun s => s.takeReaction r)) with
    | none => pure ()
    | some reaction =>
      let result ← TrialAct.ofTrial (runHandler host reaction.handler settlement).run
      match reaction.capability with
      | some c => TrialAct.ofTrial (Trial.update fun s => s.settle host.track c result)
      | none =>
        match result with
        | .ok _ => pure ()
        | .error e => throw e

def runNextJob : TrialAct σ κ Bool := do
  match ← TrialAct.ofTrial (Trial.ofRun (Run.make Machine.takeJob)) with
  | some job =>
    runJob host job
    pure true
  | none => pure false

end Checked

namespace Machine

variable {journal : σ → Journal} {owner : κ → ModuleId} {reserved : Set PromiseId}
    {hosts : Set (Host σ κ)}
variable {host : Host σ κ} {J : Machine σ κ → Prop} {s s' : Machine σ κ} {m : ModuleId}
variable {known : Finding → Prop} {spare : PromiseId → Prop}

/-! ## Dynamic imports -/

theorem Resting.loadImported_sure (hc : Conduct journal owner reserved hosts) (hh : host ∈ hosts)
    (h : s.Resting journal owner reserved known spare) (hm : s.Has m) (c : Capability) :
    Sure (fun s => (journal s.host).Stable) (Checked.loadImported host c m)
      (host.loadImported c m) s := by
  refine .bind (h.link_sure hc hh hm) fun result s₁ hlink => ?_
  cases result with
  | error e => exact .bind (.ofRun _) fun _ _ _ => .ofRun _
  | ok u =>
    have hm₁ := (link_steps hc hh hm hlink).1.has hc hm
    exact .bind ((h.link hc hh hm hlink).evaluate_sure hc hh hm₁) fun _ _ _ => .ofRun _

theorem Resting.finishImport_sure (hc : Conduct journal owner reserved hosts) (hh : host ∈ hosts)
    (h : s.Resting journal owner reserved known spare) {t : TicketId}
    {found : Except Value ModuleId} (hfound : ∀ m, found = .ok m → s.Has m) :
    Sure (fun s => (journal s.host).Stable) (Checked.finishImport host t found)
      (host.finishImport t found) s := by
  have he := elsewhere_takeImport journal s t
  refine .bind (.ofRun _) fun i? s₁ h₁ => ?_
  rw [show s.takeImport t = (i?, s₁) from Option.some.inj h₁] at he
  cases i? with
  | none => exact .pure _
  | some i =>
    cases found with
    | error e => exact .ofRun _
    | ok m =>
      exact (h.call hc (.elsewhere he)).loadImported_sure hc hh (he.has m (hfound m rfl)) _

/-! ## Jobs -/

theorem react_sure (hc : Conduct journal owner reserved hosts) (hh : host ∈ hosts)
    (h : s.Resting journal owner reserved known spare) {r : ReactionId} {x : Settlement}
    {rest : List Job} (hjobs : s.jobs = .react r x :: rest) {reaction : Reaction κ}
    (hr : s.reaction? r = some reaction) :
    Sure J (Checked.runHandler host reaction.handler x) (runHandler host reaction.handler x)
      (s.takeFirst r) := by
  have hhandler : s.handler? r = some reaction.handler := by rw [handler?, hr]; rfl
  obtain ⟨hs, hcoh⟩ := h.takeFirst hjobs fun p hp => .inr hp
  rw [hhandler] at hcoh
  cases hk : reaction.handler with
  | bodyEnded m =>
    rw [hk] at hhandler hcoh
    have hw : (s.takeFirst r).Working journal owner reserved
        { Focus.rest known spare with excused := [m] } [] [] [] [] :=
      Resting.working hs hcoh ⟨rfl, rfl, id⟩ rfl
    have htell := h.coherent.wired.begun r m hhandler
    have hend := h.coherent.wired.told r x m (by rw [hjobs]; exact List.mem_cons_self) hhandler
    have hm : (s.takeFirst r).MayTell [] m := ⟨htell.begun, htell.failed, htell.owed⟩
    cases x with
    | fulfilled v =>
      exact .act_bind (.act_lift (bodySucceeded_sure hc hh hw hm hend)) fun _ _ _ => .pure _
    | rejected e =>
      refine .act_bind (.act_lift (bodyFailed_sure hc hh hw ⟨Throws.blames hend, ?_⟩))
        fun _ _ _ => .pure _
      have hi : ¬((s.takeFirst r).cyclic m).status.IsIdle := fun hi =>
        hm.begun.2.1 ((hw.sound.shaped m).idle hi).1.2.2.1
      exact (hw.awake hi).imp id fun hst => hw.failed_of_evaluated hm hst
  | passOn | callback code | resumeBody m c code | imported m | joined j k => exact .ofRun _

theorem runJob_sure (hc : Conduct journal owner reserved hosts) (hh : host ∈ hosts)
    (h : s.Resting journal owner reserved known spare) {job : Job} {rest : List Job}
    (hjobs : s.jobs = job :: rest) :
    Sure (fun s => (journal s.host).Stable) (Checked.runJob host job) (runJob host job)
      { s with jobs := rest } := by
  cases job with
  | adopt q followed => exact Sure.ofRun (runJob host (.adopt q followed)).outcome
  | finishImport referrer specifier ticket =>
    refine .act_bind (.act_lift (.ofRun _)) fun found s₁ hrun => .act_lift ?_
    obtain ⟨_, hfound, hresolve⟩ := Act.ofRun_eq_some.1 hrun
    cases hfound
    have h₁ := h.takeJob hjobs fun _ _ e => nomatch e
    have h₂ := h₁.calls hc (hc.resolve host hh referrer specifier _ _ _ hresolve)
    refine h₂.finishImport_sure hc hh fun m hm => ?_
    rw [hm] at hresolve
    exact (hc.found host hh hresolve).1
  | react r x =>
    refine .act_bind (.act_lift (.ofRun _)) fun reaction? s₁ hrun => ?_
    obtain ⟨_, hr, hrun⟩ := Act.ofRun_eq_some.1 hrun
    cases hr
    obtain ⟨rfl, rfl⟩ : s.reaction? r = reaction? ∧ s.takeFirst r = s₁ := by
      have he : ({ s with jobs := rest } : Machine σ κ).takeReaction r = (reaction?, s₁) :=
        Option.some.inj hrun
      rw [takeReaction_eq hjobs] at he
      exact Prod.mk.inj he
    cases hr : s.reaction? r with
    | none => exact .pure _
    | some reaction =>
      refine .act_bind (.act_lift (react_sure hc hh h hjobs hr)) fun result s₂ _ => ?_
      cases reaction.capability with
      | some c => exact .act_lift (.ofRun _)
      | none => cases result <;> exact .pure _

theorem runNextJob_sure (hc : Conduct journal owner reserved hosts) (hh : host ∈ hosts)
    (h : s.Resting journal owner reserved known spare) :
    Sure (fun s => (journal s.host).Stable) (Checked.runNextJob host) (runNextJob host) s := by
  refine .act_bind (.act_lift (.ofRun _)) fun job? s₁ hrun => ?_
  obtain ⟨_, hj, hrun⟩ := Act.ofRun_eq_some.1 hrun
  cases hj
  have he : s.takeJob = (job?, s₁) := Option.some.inj hrun
  rw [takeJob] at he
  cases hjobs : s.jobs with
  | nil =>
    rw [hjobs] at he
    cases he
    exact .pure _
  | cons job rest =>
    rw [hjobs] at he
    cases he
    exact .act_bind (runJob_sure hc hh h hjobs) fun _ _ _ => .pure _

/-! ## Runs -/

/-- Wherever a run comes to, linking, evaluating, redeeming a ticket and running the next job go as
if nothing was asserted. What a callback does by itself starts at such machines as well. An
assertion can only fail when some request has been answered in two ways. -/
theorem assertions_hold (hc : Conduct journal owner reserved hosts) (hh : host ∈ hosts)
    (h : Reachable journal reserved hosts s) :
    (∀ m, s.Has m →
        Sure (fun s => (journal s.host).Stable) (Checked.link host m) (host.link m) s ∧
          Sure (fun s => (journal s.host).Stable) (Checked.evaluate host m) (host.evaluate m) s) ∧
      (∀ t found, (∀ m, found = .ok m → s.Has m) → Sure (fun s => (journal s.host).Stable)
        (Checked.finishImport host t found) (host.finishImport t found) s) ∧
      Sure (fun s => (journal s.host).Stable) (Checked.runNextJob host) (runNextJob host) s :=
  have hr := h.resting hc
  ⟨fun _ hm => ⟨hr.link_sure hc hh hm, hr.evaluate_sure hc hh hm⟩,
    fun _ _ hfound => hr.finishImport_sure hc hh hfound, runNextJob_sure hc hh hr⟩

/-- The evaluation of the short run is sure, and no assertion fails in it. -/
theorem assertions_hold_sample :
    Sure (fun s => s.host.Stable) (Checked.evaluate (Sample.host .completes) ⟨0⟩)
        ((Sample.host .completes).evaluate ⟨0⟩) (Sample.linked .completes) ∧
      ∃ p, Checked.evaluate (Sample.host .completes) ⟨0⟩ (Sample.linked .completes) =
        some (.ok (p, Sample.evaluated .completes)) :=
  ⟨((assertions_hold ((sample .completes).conduct 4 Set.univ) rfl
    (Sample.reachable_linked Set.univ rfl)).1 ⟨0⟩ (Sample.has_linked rfl)).2, ⟨0⟩, rfl⟩

/-- A module that does not wait must not be told that its body has ended. -/
example : Checked.bodySucceeded (Sample.host .completes) ⟨0⟩ Sample.made =
    some (.error ⟨.isWaiting, Sample.made⟩) := rfl

end Machine

end ModuleGraph

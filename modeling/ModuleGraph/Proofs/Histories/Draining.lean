import ModuleGraph.Proofs.Histories.Itineraries

/-! # No job throws

A reaction without a capability has a handler that settles what it holds itself and does not throw.
What any other handler throws settles a promise. So no job throws, and running the jobs ends with an
empty queue, whatever the callbacks, bodies and hooks of the host do. -/

namespace ModuleGraph

variable {σ κ α : Type}

/-! ## Jobs -/

section Jobs

variable {host : Host σ κ} {s s' : Machine σ κ} {r : ReactionId} {x : Settlement}

/-- A handler that cannot throw does not. -/
theorem runHandler_of_not_canThrow {handler : Handler κ} (h : handler.canThrow = false)
    {result : Except Value Value} (hrun : runHandler host handler x s = some (result, s')) :
    result = .ok .undefined := by
  cases handler with
  | passOn | callback | imported => cases h
  | bodyEnded m =>
    cases x with
    | fulfilled v =>
      obtain ⟨_, s₁, -, hrun⟩ | ⟨e, hthrow, -⟩ := throwing_bind.1 hrun
      · cases hrun
        rfl
      · obtain ⟨_, he, -⟩ := Act.ofRun_eq_some.1 hthrow
        cases he
    | rejected e =>
      cases hrun
      rfl
  | resumeBody m c code =>
    obtain ⟨execution, s₁, -, hrun⟩ | ⟨e, hthrow, -⟩ := throwing_bind.1 hrun
    · cases hrun
      rfl
    · obtain ⟨_, he, -⟩ := Act.ofRun_eq_some.1 hthrow
      cases he
  | joined j k =>
    cases x <;> cases hrun <;> rfl

theorem Machine.takeReaction_fst (s : Machine σ κ) (r : ReactionId) :
    (s.takeReaction r).1 = s.reaction? r := by
  rw [takeReaction, reaction?]
  rcases s.reactions[r.index]? with _ | _ | reaction <;> rfl

/-- The job of a reaction returns once its handler has returned or thrown. -/
theorem runJob_of_runHandler {reaction : Reaction κ} (hr : s.reaction? r = some reaction)
    (hguarded : reaction.capability = none → reaction.handler.canThrow = false)
    {result : Except Value Value}
    (hrun : runHandler host reaction.handler x (s.takeReaction r).2 = some (result, s')) :
    runJob host (.react r x) s = some (.ok (),
      reaction.capability.elim s' fun c => s'.settle host.track c result) := by
  rw [runJob, Act.make_bind, s.takeReaction_fst, hr]
  dsimp only
  have houtcome : Act.ofRun (runHandler host reaction.handler x).outcome (s.takeReaction r).2 =
      some (.ok result, s') := Act.ofRun_eq_some.2 ⟨result, rfl, hrun⟩
  rw [throwing_bind_of_ok houtcome]
  cases hc : reaction.capability with
  | some c => rfl
  | none =>
    rw [runHandler_of_not_canThrow (hguarded hc) hrun]
    rfl

end Jobs

namespace Machine

variable {track : Tracker σ} {ledger : σ → α} {owned : σ → PromiseId → Prop}
variable {hosts : Set (Host σ κ)} {rank : Host σ κ → Nat} {host : Host σ κ} {h₀ : σ}
variable {s s' : Machine σ κ} {os : List Occurrence}

/-- What may throw has a capability for what it throws. -/
def Guarded (s : Machine σ κ) : Prop :=
  ∀ r reaction, s.reaction? r = some reaction →
    reaction.capability = none → reaction.handler.canThrow = false

theorem Orderly.guarded (hs : s.Orderly owned) : s.Guarded :=
  fun r reaction hr => (hs.suits r reaction hr).guarded

theorem runJob_returns (hs : s.Guarded) {job : Job} {result : Except Value Unit}
    (hrun : runJob host job s = some (result, s')) : result = .ok () := by
  cases job with
  | adopt p q =>
    cases hrun
    rfl
  | finishImport referrer specifier ticket =>
    obtain ⟨found, s₁, -, hrun⟩ | ⟨e, hthrow, -⟩ := throwing_bind.1 hrun
    · obtain ⟨_, he, -⟩ := Act.ofRun_eq_some.1 hrun
      exact he
    · obtain ⟨_, he, -⟩ := Act.ofRun_eq_some.1 hthrow
      cases he
  | react r x =>
    cases hr : s.reaction? r with
    | none =>
      rw [runJob, Act.make_bind, s.takeReaction_fst, hr] at hrun
      cases hrun
      rfl
    | some reaction =>
      have hrun' := hrun
      rw [runJob, Act.make_bind, s.takeReaction_fst, hr] at hrun'
      obtain ⟨result', s₁, hhandler, -⟩ | ⟨e, hthrow, -⟩ := throwing_bind.1 hrun'
      · obtain ⟨_, he, hhandler⟩ := Act.ofRun_eq_some.1 hhandler
        cases he
        rw [runJob_of_runHandler hr (hs r reaction hr) hhandler] at hrun
        cases hrun
        rfl
      · obtain ⟨_, he, -⟩ := Act.ofRun_eq_some.1 hthrow
        cases he

/-- The next job is run, unless there is none. -/
theorem runNextJob_returns (hs : s.Guarded) {result : Except Value Bool}
    (hrun : runNextJob host s = some (result, s')) :
    s.jobs = [] ∧ result = .ok false ∧ s' = s ∨ result = .ok true := by
  rw [runNextJob, Act.make_bind] at hrun
  cases hjobs : s.jobs with
  | nil =>
    rw [takeJob, hjobs] at hrun
    cases hrun
    exact .inl ⟨rfl, rfl, rfl⟩
  | cons job rest =>
    rw [takeJob, hjobs] at hrun
    refine .inr ?_
    obtain ⟨_, s₁, -, hrun⟩ | ⟨e, hthrow, -⟩ := throwing_bind.1 hrun
    · cases hrun
      rfl
    · have hreturns := runJob_returns (s := { s with jobs := rest }) hs hthrow
      cases hreturns

theorem Orderly.drained (h : Operates hosts rank track ledger owned) (hhost : host ∈ hosts)
    (count : Nat) : ∀ {s : Machine σ κ} {result s'}, s.Orderly owned →
      drain host count s = some (result, s') →
        result = .ok () ∧ s'.jobs = [] ∧ ∃ os, s.Journey track ledger owned os s' := by
  induction count with
  | zero => exact fun _ hrun => nomatch hrun
  | succ count ih =>
    intro s result s' hs hrun
    rw [drain] at hrun
    obtain ⟨more, s₁, hnext, hrun⟩ | ⟨e, hthrow, -⟩ := throwing_bind.1 hrun
    · obtain ⟨hs₁, os, ho⟩ := h.travels (.single (.job hhost hnext)) hs
      obtain ⟨hjobs, hmore, rfl⟩ | hmore := runNextJob_returns hs.guarded hnext
      · cases hmore
        cases hrun
        exact ⟨rfl, hjobs, os, ho⟩
      · cases hmore
        obtain ⟨hresult, hempty, os', ho'⟩ := ih hs₁ hrun
        exact ⟨hresult, hempty, os ++ os', ho.append ho'⟩
    · obtain ⟨-, he, -⟩ | he := runNextJob_returns hs.guarded hthrow <;> cases he

/-- Jobs at a machine: whatever the host does, none of those in the queue throws. -/
structure JobsReturn (hosts : Set (Host σ κ)) (track : Tracker σ) (ledger : σ → α)
    (owned : σ → PromiseId → Prop) (s : Machine σ κ) : Prop where
  /-- A queued job does not throw, whatever is queued behind it. -/
  returns : ∀ host, ∀ job ∈ s.jobs, ∀ rest result s',
    runJob host job { s with jobs := rest } = some (result, s') → result = .ok ()
  /-- The job of a reaction finds it in its place, and returns once its handler has returned or
  thrown. -/
  answers : ∀ host r x, .react r x ∈ s.jobs → ∃ reaction, s.reaction? r = some reaction ∧
    ∀ rest result s',
      runHandler host reaction.handler x
        (({ s with jobs := rest } : Machine σ κ).takeReaction r).2 = some (result, s') →
      runJob host (.react r x) { s with jobs := rest } = some (.ok (),
        reaction.capability.elim s' fun c => s'.settle host.track c result)
  /-- Running the jobs leaves none of them behind. -/
  drains : ∀ host ∈ hosts, ∀ result s', host.runJobs s = some (result, s') →
    result = .ok () ∧ s'.jobs = [] ∧ ∃ os, s.Journey track ledger owned os s'

theorem Journey.jobsReturn (h : Operates hosts rank track ledger owned) (hh : ∀ p, ¬owned h₀ p)
    (ho : (initial h₀).Journey track ledger owned os s) :
    s.JobsReturn hosts track ledger owned := by
  have hs := ho.orderly (orderly_initial hh)
  refine ⟨fun host job _ rest result s' hrun => runJob_returns (s := { s with jobs := rest })
    hs.guarded hrun, fun host r x hjob => ?_, fun host hhost result s' => hs.drained h hhost _⟩
  obtain ⟨reaction, hr⟩ := ho.history.accounts.reaction_of_queued (mem_queue.2 hjob)
  refine ⟨reaction, hr, fun rest result s' hrun => ?_⟩
  exact runJob_of_runHandler (s := { s with jobs := rest }) hr (hs.guarded r reaction hr) hrun

/-- No job throws, and running the jobs empties the queue. Whatever operations do is a journey, and
all this holds at each machine of a journey. -/
theorem no_job_throws (h : Operates hosts rank track ledger owned) (hh : ∀ p, ¬owned h₀ p) :
    (∀ s s', s.Arises hosts track ledger owned h₀ → s.Uses hosts track ledger owned s' →
      ∃ os os', (initial h₀).Journey track ledger owned os s ∧
        s.Journey track ledger owned os' s') ∧
    ∀ os s, (initial h₀ : Machine σ κ).Journey track ledger owned os s →
      s.JobsReturn hosts track ledger owned :=
  ⟨fun _ _ hs hs' => h.journey hs hs', fun _ _ ho => ho.jobsReturn h hh⟩

end Machine

open Recorder in
/-- A callback waits for a rejected promise and will throw: running the jobs returns. -/
theorem no_job_throws_awaited :
    Operates hosts (fun _ => 0) host.track id owned ∧ (∀ p, ¬owned [] p) ∧
    awaited.jobs = [.react ⟨0⟩ (.rejected .undefined)] ∧
    host.call () (.rejected .undefined) (awaited.takeFirst ⟨0⟩) =
      some (.error .undefined, awaited.takeFirst ⟨0⟩) ∧
    host.runJobs awaited = some (.ok (), passedOn) ∧ passedOn.jobs = [] := by
  have hrun : host.runJobs awaited = some (.ok (), passedOn) := by rfl
  have hnobody : ∀ p, ¬owned [] p := fun _ => id
  obtain ⟨hruns, hreturn⟩ := Machine.no_job_throws operates hnobody
  obtain ⟨os, os', ho, ho'⟩ := hruns rejected awaited arises_rejected (.single (.thenCall _ _ _))
  obtain ⟨-, hempty, -⟩ := (hreturn _ _ (ho.append ho')).drains host rfl _ _ hrun
  exact ⟨operates, hnobody, rfl, rfl, hrun, hempty⟩

end ModuleGraph

import ModuleGraph.Proofs.DryRuns.Visits
import ModuleGraph.Proofs.Runs.Jobs

/-! # The jobs of a dry run

Each job of a dry run returns, and takes one reaction off the load. Since a body attaches two
reactions at most, there are at most two jobs for each module. -/

namespace ModuleGraph.FileSystem

open Relation

variable {b : Desk} {s s' : Watched} {m n x : ModuleId} {depth : ℕ} {r : ReactionId}

/-! ## Modules that wait -/

namespace Course

theorem answered (h : Course b s) (depth : ℕ) (m : ModuleId) :
    Passes b s (s.answer (watchedHost depth) m) := by
  rw [Machine.answer]
  split
  · exact h.resolve depth _
  · exact .refl h

theorem completed (h : Course b s) (depth : ℕ) (m : ModuleId) :
    Passes b s ((s.complete m).answer (watchedHost depth) m) := by
  have hcomplete := h.updateCyclic m (f := fun c => { c with order := .done, status := .evaluated })
    fun _ => ⟨rfl, rfl, rfl, fun _ => .inl, fun hf => hf.elim⟩
  exact hcomplete.trans (hcomplete.course.answered depth m)

theorem gatherReady (fuel : ℕ) : ∀ {s : Watched} m ready, Course b s → (∀ x ∈ ready, b.Has x) →
    Passes b s (Machine.gatherReady fuel s m ready).2 ∧
      ∀ x ∈ (Machine.gatherReady fuel s m ready).1, b.Has x := by
  induction fuel with
  | zero => exact fun _ _ h hready => ⟨.refl h, hready⟩
  | succ fuel ih =>
    intro s m ready h hready
    have hone : ∀ {s : Watched} {ready x}, Course b s → (∀ y ∈ ready, b.Has y) → b.Has x →
        Passes b s (Machine.gatherOne (Machine.gatherReady fuel) s ready x).2 ∧
          ∀ y ∈ (Machine.gatherOne (Machine.gatherReady fuel) s ready x).1, b.Has y := by
      intro s ready x h hready hx
      have hrelease : Passes b s (s.release x) := h.updateCyclic x
        fun _ => ⟨rfl, rfl, rfl, fun _ => .inl, id⟩
      have hjoin : ∀ y ∈ ready ++ [x], b.Has y := fun y hy =>
        (List.mem_append.1 hy).elim (hready y) fun e => List.mem_singleton.1 e ▸ hx
      rw [Machine.gatherOne]
      split
      · exact ⟨.refl h, hready⟩
      · split
        · exact ⟨.refl h, hready⟩
        · exact ⟨.refl h, hready⟩
        · dsimp only
          split
          · split
            · exact ⟨hrelease, hjoin⟩
            · obtain ⟨hp, hall⟩ := ih x _ hrelease.course hjoin
              exact ⟨hrelease.trans hp, hall⟩
          · exact ⟨hrelease, hready⟩
    have hparents : ∀ x ∈ (s.cyclic m).parents, b.Has x := fun x hx =>
      (h.cast.has x).1 (h.cast.parents m x hx)
    rw [Machine.gatherReady]
    revert hparents
    induction (s.cyclic m).parents generalizing s ready with
    | nil => exact fun _ => ⟨.refl h, hready⟩
    | cons x rest ihx =>
      intro hparents
      obtain ⟨hp, hall⟩ := hone h hready (hparents x List.mem_cons_self)
      obtain ⟨hp', hall'⟩ := ihx _ hp.course hall fun y hy => hparents y (List.mem_cons_of_mem _ hy)
      exact ⟨hp.trans hp', hall'⟩

theorem runReady (h : Course b s) (hdepth : 0 < depth) (hm : b.Has m) :
    ∃ s', runReady (watchedHost depth) m s = some ((), s') ∧ Passes b s s' := by
  have hhas := (h.cast.has m).2 hm
  rw [ModuleGraph.runReady, Run.view_bind]
  split
  · exact ⟨s, rfl, .refl h⟩
  · split
    · exact h.startAsyncBody hdepth hhas
    · rename_i hawait
      rw [h.cast.hasAwait_eq, Bool.not_eq_true] at hawait
      obtain ⟨s₁, hrun, hp⟩ := h.runSyncBody hdepth hhas hawait
      exact ⟨_, Run.bind_eq_some.2 ⟨.ok (), s₁, hrun, rfl⟩,
        hp.trans (hp.course.completed depth m)⟩

/-- What waits for a module is run when its body has ended. -/
theorem bodySucceeded (h : Course b s) (hdepth : 0 < depth) (m : ModuleId) :
    ∃ s', bodySucceeded (watchedHost depth) m s = some ((), s') ∧ Passes b s s' := by
  rw [ModuleGraph.bodySucceeded, Run.view_bind]
  split
  · exact ⟨s, rfl, .refl h⟩
  rw [Run.update_bind, Run.make_bind, Run.view_bind]
  have hcompleted := h.completed depth m
  set s₁ := (s.complete m).answer (watchedHost depth) m with hs₁
  obtain ⟨hgathered, hready⟩ := gatherReady (s₁.modules.size + 1) m [] hcompleted.course
    fun _ hx => by cases hx
  have hrest : ∀ (xs : List ModuleId) {s : Watched}, Course b s → (∀ x ∈ xs, b.Has x) →
      ∃ s', (xs.forM (ModuleGraph.runReady (watchedHost depth))) s = some (⟨⟩, s') ∧
        Passes b s s' := by
    intro xs
    induction xs with
    | nil => exact fun {s} h _ => ⟨s, rfl, .refl h⟩
    | cons x rest ih =>
      intro s h hxs
      obtain ⟨s₁, hrun₁, hp₁⟩ := h.runReady hdepth (hxs x List.mem_cons_self)
      obtain ⟨s₂, hrun₂, hp₂⟩ := ih hp₁.course fun y hy => hxs y (List.mem_cons_of_mem _ hy)
      exact ⟨s₂, Run.bind_eq_some.2 ⟨(), s₁, hrun₁, hrun₂⟩, hp₁.trans hp₂⟩
  obtain ⟨s', hrun, hp⟩ := hrest (Machine.sortByTurn (s₁.readyAfter m).2 (s₁.readyAfter m).1)
    hgathered.course fun x hx => hready x ((List.mergeSort_perm _ _).mem_iff.1 hx)
  exact ⟨s', hrun, hcompleted.trans (hgathered.trans hp)⟩

end Course

/-! ## Jobs -/

theorem Course.runHandler (h : Course b s) (hdepth : 0 < depth) {handler : Handler ModuleId}
    (hhandles : Handles b s.host.2 handler) :
    ∃ v s', runHandler (watchedHost depth) handler (.fulfilled .undefined) s =
      some (.ok v, s') ∧ Passes b s s' := by
  cases handler with
  | passOn | callback | imported | joined => exact hhandles.elim
  | bodyEnded m =>
    obtain ⟨s', hrun, hp⟩ := h.bodySucceeded hdepth m
    exact ⟨_, s', throwing_bind.2 (.inl ⟨(), s', Act.ofRun_eq_some.2 ⟨_, rfl, hrun⟩, rfl⟩), hp⟩
  | resumeBody m c code =>
    obtain ⟨s', hrun, hp⟩ := h.resume hdepth hhandles .undefined
    exact ⟨_, _, throwing_bind.2 (.inl ⟨.ok .completed, s', Act.ofRun_eq_some.2 ⟨_, rfl, hrun⟩,
      rfl⟩), hp.trans (hp.course.resolve depth c)⟩

theorem Handles.isOfBody {j : Journal} {handler : Handler ModuleId} (h : Handles b j handler) :
    handler.isOfBody := by
  cases handler with
  | bodyEnded | resumeBody => trivial
  | passOn | callback | imported | joined => exact h.elim

theorem Course.takeFirst (h : Course b s) {job : Job} {rest : List Job}
    (hjobs : s.jobs = job :: rest) (r : ReactionId) :
    Course b (s.takeFirst r) ∧ (s.takeFirst r).load + 1 = s.load := by
  refine ⟨h.aside rfl rfl ⟨h.pledges.settled, fun r' reaction hr => ?_, fun job' hjob => ?_,
    fun p r' hr => ?_⟩, ?_⟩
  · rw [Machine.reaction?_takeFirst] at hr
    split at hr
    · cases hr
    · exact h.pledges.handles r' reaction hr
  · exact h.pledges.jobs job' (List.mem_of_mem_tail hjob)
  · obtain ⟨hlt, hne⟩ := h.pledges.held p r' hr
    refine ⟨?_, fun m c code e => hne m c code (Machine.handler?_takeFirst.1 e).2⟩
    change _ < (s.reactions.setIfInBounds r.index none).size
    rwa [Array.size_setIfInBounds]
  · have htail : (s.takeFirst r).jobs.length + 1 = s.jobs.length := by
      change s.jobs.tail.length + 1 = _
      rw [hjobs]
      rfl
    have hpromises : (s.takeFirst r).promises = s.promises := rfl
    rw [Machine.load, Machine.load, hpromises]
    omega

/-- A job without a capability does what its handler does. -/
theorem runJob_of_runHandler {σ κ : Type} {host : Host σ κ} {s s' : Machine σ κ} {y : Settlement}
    {rest : List Job} (hjobs : s.jobs = .react r y :: rest) {reaction : Reaction κ}
    (hr : s.reaction? r = some reaction) (hcapability : reaction.capability = none) {v : Value}
    (hrun : runHandler host reaction.handler y (s.takeFirst r) = some (.ok v, s')) :
    runJob host (.react r y) { s with jobs := rest } = some (.ok (), s') := by
  rw [runJob, Act.make_bind, Machine.takeReaction_eq hjobs, hr]
  refine throwing_bind.2 (.inl ⟨.ok v, s', Act.ofRun_eq_some.2 ⟨_, rfl, hrun⟩, ?_⟩)
  rw [hcapability]
  rfl

theorem runJob_of_taken {σ κ : Type} {host : Host σ κ} {s : Machine σ κ} {y : Settlement}
    {rest : List Job} (hjobs : s.jobs = .react r y :: rest) (hr : s.reaction? r = none) :
    runJob host (.react r y) { s with jobs := rest } = some (.ok (), s.takeFirst r) := by
  rw [runJob, Act.make_bind, Machine.takeReaction_eq hjobs, hr]
  rfl

/-- **Jobs return.** A job of a dry run does not throw, and takes one reaction off the load. It is
the same job when nobody watches. -/
theorem Course.job (h : Course b s) (hdepth : 0 < depth) {job : Job} {rest : List Job}
    (hjobs : s.jobs = job :: rest) :
    ∃ s', runNextJob (watchedHost depth) s = some (.ok true, s') ∧
      runNextJob (dryHost depth) (Watched.desk s) = some (.ok true, Watched.desk s') ∧
      Course b s' ∧ s'.load + 1 + 2 * begun s ≤ s.load + 2 * begun s' := by
  obtain ⟨r, rfl⟩ := h.pledges.jobs job (by rw [hjobs]; exact List.mem_cons_self)
  obtain ⟨htaken, hload⟩ := h.takeFirst hjobs r
  have hnext : ∀ {σ κ : Type} {host : Host σ κ} {s s' : Machine σ κ} {job : Job},
      s.jobs = job :: rest → runJob host job { s with jobs := rest } = some (.ok (), s') →
        runNextJob host s = some (.ok true, s') := fun {σ κ host s s' job} hjobs hrun => by
    rw [runNextJob, Act.make_bind, Machine.takeJob, hjobs]
    exact throwing_bind.2 (.inl ⟨(), s', hrun, rfl⟩)
  have hjobs' : (Watched.desk s).jobs = .react r (.fulfilled .undefined) :: rest := hjobs
  cases hr : s.reaction? r with
  | none =>
    have hr' : (Watched.desk s).reaction? r = none := hr
    refine ⟨s.takeFirst r, hnext hjobs (runJob_of_taken hjobs hr),
      hnext hjobs' (runJob_of_taken hjobs' hr'), htaken, ?_⟩
    have hbegun : begun (s.takeFirst r) = begun s := rfl
    omega
  | some reaction =>
    have hr' : (Watched.desk s).reaction? r = some reaction := hr
    obtain ⟨hcapability, hhandles⟩ := h.pledges.handles r reaction hr
    obtain ⟨v, s', hrun, hp⟩ := htaken.runHandler hdepth hhandles
    have hseen := (watchedHost_keeps depth).runHandler hhandles.isOfBody _ _ _ _ hrun
    refine ⟨s', hnext hjobs (runJob_of_runHandler hjobs hr hcapability hrun),
      hnext hjobs' (runJob_of_runHandler hjobs' hr' hcapability hseen), hp.course, ?_⟩
    have hpace := hp.pace
    have hbegun : begun (s.takeFirst r) = begun s := rfl
    omega

/-! ## Bodies that have started -/

def startedModules (events : List BodyEvent) : List ModuleId :=
  events.filterMap fun
    | .started m => some m
    | .resumed _ => none

theorem length_startedModules (events : List BodyEvent) :
    (startedModules events).length = CommandLine.startedCount events := by
  rw [startedModules, List.length_filterMap_eq_countP, CommandLine.startedCount]
  refine List.countP_congr fun e _ => ?_
  cases e <;> simp

theorem count_startedModules (events : List BodyEvent) (m : ModuleId) :
    (startedModules events).count m = events.count (.started m) := by
  rw [startedModules, List.count_filterMap, List.count]
  refine List.countP_congr fun e _ => ?_
  cases e <;> simp

theorem Chronicle.count_started {w : Workspace × Journal} (h : Chronicle b w) (m : ModuleId) :
    w.1.events.count (.started m) = Journal.starts w.2 m := by
  rw [h.events, List.count_filterMap, Journal.starts]
  refine List.countP_congr fun e _ => ?_
  cases e with
  | ended n => by_cases hawait : b.hasAwait n = true <;> simp [eventOf, hawait, Entry.isStart]
  | started | resolved | refused | threw | waited => simp [eventOf, Entry.isStart]

section Rest

variable {known : Finding → Prop} (h : Course b s)
variable (hrest : s.Resting Prod.snd id Set.univ known fun _ => False)
include h hrest

theorem Course.starts_le_one (m : ModuleId) : Journal.starts s.host.2 m ≤ 1 := by
  have hshaped := hrest.sound.shaped m
  by_cases hi : (s.cyclic m).status.IsIdle
  · have hzero : Journal.starts s.host.2 m = 0 := (hshaped.idle hi).2 (h.cast.isCyclic m)
    omega
  · exact hshaped.once hi

theorem Course.mem_startedModules :
    m ∈ startedModules s.host.1.events ↔ Journal.starts s.host.2 m = 1 := by
  have hle := h.starts_le_one hrest m
  rw [← List.count_pos_iff, count_startedModules, h.chronicle.count_started]
  omega

theorem Course.nodup_startedModules : (startedModules s.host.1.events).Nodup := by
  refine List.nodup_iff_count_le_one.2 fun m => ?_
  rw [count_startedModules, h.chronicle.count_started]
  exact h.starts_le_one hrest m

theorem Course.has_of_started (hm : m ∈ startedModules s.host.1.events) : b.Has m := by
  have hone := (h.mem_startedModules hrest).1 hm
  refine (h.cast.has m).1 (hrest.coherent.visited m ?_).has
  rw [hone]
  exact one_ne_zero

/-- No more bodies have started than there are modules. -/
theorem Course.begun_le : begun s ≤ b.modules.size := by
  have hsub : (startedModules s.host.1.events).map (·.index) ⊆ List.range b.modules.size :=
    fun i hi => by
      obtain ⟨m, hm, rfl⟩ := List.mem_map.1 hi
      exact List.mem_range.2 (h.has_of_started hrest hm)
  have hnodup : ((startedModules s.host.1.events).map (·.index)).Nodup :=
    (h.nodup_startedModules hrest).map fun _ _ => congrArg ModuleId.mk
  have hle := (List.subperm_of_subset hnodup hsub).length_le
  rwa [List.length_map, length_startedModules, List.length_range] at hle

end Rest

/-- **The queue drains.** When more jobs may run than reactions can be left, the queue drains
without a job that throws. It does so in the same way when nobody watches. -/
theorem Course.drain {known : Finding → Prop} (hk : ∀ f, known f → f.IsLasting)
    (hdepth : 0 < depth) (count : ℕ) : ∀ s, Course b s →
      s.Resting Prod.snd id Set.univ known (fun _ => False) →
      s.load + 2 * (b.modules.size - begun s) < count →
      ∃ s', drain (dryHost depth) count (Watched.desk s) = some (.ok (), Watched.desk s') ∧
        Course b s' ∧ s'.Resting Prod.snd id Set.univ known (fun _ => False) ∧ s'.jobs = [] := by
  induction count with
  | zero => exact fun _ _ _ hlt => absurd hlt (Nat.not_lt_zero _)
  | succ count ih =>
    intro s h hrest hlt
    rw [ModuleGraph.drain]
    cases hjobs : s.jobs with
    | nil =>
      have hnone : runNextJob (dryHost depth) (Watched.desk s) =
          some (.ok false, Watched.desk s) := by
        have hjobs' : (Watched.desk s).jobs = [] := hjobs
        rw [runNextJob, Act.make_bind, Machine.takeJob, hjobs']
        rfl
      exact ⟨s, throwing_bind.2 (.inl ⟨false, _, hnone, rfl⟩), h, hrest, hjobs⟩
    | cons job rest =>
      obtain ⟨s₁, hrun, hdry, h₁, hpace⟩ := h.job hdepth hjobs
      have hrest₁ := hrest.step (watchedHost_conduct depth Set.univ) hk (.job rfl hrun)
      have hbound := h₁.begun_le hrest₁
      obtain ⟨s', hdrain, h', hrest', hempty⟩ := ih s₁ h₁ hrest₁ (by omega)
      exact ⟨s', throwing_bind.2 (.inl ⟨true, _, hdry, hdrain⟩), h', hrest', hempty⟩

end ModuleGraph.FileSystem

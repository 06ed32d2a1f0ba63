import ModuleGraph.Proofs.DryRuns.Bodies
import ModuleGraph.Proofs.Runs.Visit

/-! # Visits of a dry run

Each visit of an evaluation returns, if it may go deeper than there are idle modules: it throws
nothing, since no module has failed. So the evaluation of linked files returns a promise. -/

namespace ModuleGraph.FileSystem

open Relation

variable {b : Desk} {s s' : Watched} {m n x : ModuleId} {request : String} {depth : ℕ}
variable {t t' : Traversal}

/-! ## Idle modules -/

instance : DecidablePred Status.IsIdle
  | .unlinked | .linking | .linked => .isTrue trivial
  | .evaluating | .evaluatingAsync | .evaluated => .isFalse id

def idle (s : Watched) : Finset ℕ :=
  (Finset.range s.modules.size).filter fun i => (s.cyclic ⟨i⟩).status.IsIdle

theorem card_idle_le (h : Cast b s) : (idle s).card ≤ b.modules.size := by
  rw [← h.size]
  exact (Finset.card_filter_le _ _).trans (Finset.card_range _).le

theorem Passes.idle_subset (h : Passes b s s') (hs : Cast b s) : idle s' ⊆ idle s := by
  rw [idle, idle, h.course.cast.size, hs.size]
  exact Finset.monotone_filter_right _ fun i _ hi => h.awake ⟨i⟩ hi

theorem Passes.card_idle_le (h : Passes b s s') (hs : Cast b s) :
    (idle s').card ≤ (idle s).card := Finset.card_le_card (h.idle_subset hs)

theorem Passes.card_idle_lt (h : Passes b s s') (hs : Cast b s) (hm : s.Has m)
    (hidle : (s.cyclic m).status.IsIdle) (hawake : ¬(s'.cyclic m).status.IsIdle) :
    (idle s').card < (idle s).card := by
  refine Finset.card_lt_card (Finset.ssubset_iff_of_subset (h.idle_subset hs) |>.2
    ⟨m.index, ?_, fun hm' => ?_⟩)
  · exact Finset.mem_filter.2 ⟨Finset.mem_range.2 hm, hidle⟩
  · exact hawake (Finset.mem_filter.1 hm').2

theorem Passes.has (h : Passes b s s') (hs : Cast b s) (hm : s.Has m) : s'.Has m :=
  (h.course.cast.has m).2 ((hs.has m).1 hm)

/-! ## Changes of single modules -/

theorem Course.await (h : Course b s) (hm : s.Has m) (n : ModuleId) :
    Passes b s (s.await m n) := by
  rw [Machine.await]
  split
  · have hcount := h.updateCyclic m (f := fun c => { c with pending := c.pending.map (· + 1) })
      fun _ => ⟨rfl, rfl, rfl, fun _ => .inl, id⟩
    refine hcount.trans (hcount.course.updateCyclic n fun c => ⟨rfl, rfl, rfl, fun x hx => ?_, id⟩)
    refine (List.mem_append.1 hx).imp id fun hx => ?_
    rw [List.mem_singleton.1 hx]
    exact hcount.has h.cast hm
  · exact .refl h

theorem Course.takeTurn (h : Course b s) (m : ModuleId) : Passes b s (s.takeTurn m) := by
  have hturn := h.updateCyclic m (f := fun c => { c with order := .turn s.nextTurn })
    fun _ => ⟨rfl, rfl, rfl, fun _ => .inl, id⟩
  exact ⟨hturn.course.aside rfl rfl (hturn.course.pledges.change rfl rfl rfl fun _ => id),
    hturn.pace, hturn.awake⟩

/-! ## Visits -/

def Visits (b : Desk) (x : EvalVisit (Workspace × Journal) ModuleId Unit) (t : Traversal)
    (s : Watched) : Prop :=
  ∃ t' s', x t s = some ((.ok (), t'), s') ∧ Passes b s s'

theorem Visits.bind {x : EvalVisit (Workspace × Journal) ModuleId Unit}
    {f : Unit → EvalVisit (Workspace × Journal) ModuleId Unit} (hx : Visits b x t s)
    (hf : ∀ t' s', x t s = some ((.ok (), t'), s') → Passes b s s' → Visits b (f ()) t' s') :
    Visits b (x >>= f) t s := by
  obtain ⟨t₁, s₁, hrun, hpasses⟩ := hx
  obtain ⟨t₂, s₂, hrun₂, hpasses₂⟩ := hf t₁ s₁ hrun hpasses
  exact ⟨t₂, s₂, visit_bind.2 (.inl ⟨(), t₁, s₁, hrun, hrun₂⟩), hpasses.trans hpasses₂⟩

theorem Visits.pure (h : Course b s) : Visits b (pure ()) t s := ⟨t, s, rfl, .refl h⟩

theorem Visits.update {f : Watched → Watched} (h : Passes b s (f s)) :
    Visits b (EvalVisit.update f) t s := ⟨t, f s, rfl, h⟩

theorem Visits.ofAct {x : Watching Unit} (h : ∃ s', x s = some (.ok (), s') ∧ Passes b s s') :
    Visits b (EvalVisit.ofAct x) t s := by
  obtain ⟨s', hrun, hpasses⟩ := h
  exact ⟨t, s', EvalVisit.ofAct_eq_some.2 ⟨rfl, hrun⟩, hpasses⟩

theorem Visits.ofRun {x : Run (Workspace × Journal) ModuleId Unit}
    (h : ∃ s', x s = some ((), s') ∧ Passes b s s') : Visits b (EvalVisit.ofRun x) t s := by
  obtain ⟨s', hrun, hpasses⟩ := h
  exact ⟨t, s', EvalVisit.ofRun_eq_some.2 ⟨rfl, _, rfl, hrun⟩, hpasses⟩

namespace Course

theorem openEvaluation (h : Course b s) (m : ModuleId) (t : Traversal) :
    Visits b (ModuleGraph.openEvaluation m) t s :=
  ⟨_, _, rfl, h.updateCyclic m fun _ => ⟨rfl, rfl, rfl, fun _ => .inl, fun hf => hf.elim⟩⟩

theorem afterRequest (h : Course b s) (hm : s.Has m) (n : ModuleId) (t : Traversal) :
    Visits b (ModuleGraph.afterRequest m n) t s := by
  have hreach := h.updateCyclic m (f := (·.reach (s.cyclic n).ancestor))
    fun _ => ⟨rfl, rfl, rfl, fun _ => .inl, id⟩
  rw [Visits, ModuleGraph.afterRequest, EvalVisit.view_bind, h.cast.cyclic?_eq n]
  dsimp only
  split
  · exact Visits.update (hreach.trans (hreach.course.await (hreach.has h.cast hm) n))
  · rw [EvalVisit.view_bind, EvalVisit.view_bind, h.cast.errors]
    exact Visits.update (h.await hm (s.cycleRoot n))

theorem runOrWait (h : Course b s) (hdepth : 0 < depth) (hm : s.Has m) (t : Traversal) :
    Visits b (ModuleGraph.runOrWait (watchedHost depth) m) t s := by
  rw [Visits, ModuleGraph.runOrWait]
  simp only [EvalVisit.view_bind]
  split
  · have hturn := h.takeTurn m
    refine Visits.bind (.update hturn) fun t' s' hrun _ => ?_
    cases hrun
    split
    · exact .ofRun (hturn.course.startAsyncBody hdepth (hturn.has h.cast hm))
    · exact .pure hturn.course
  · rename_i hwait
    rw [h.cast.hasAwait_eq] at hwait
    exact Visits.ofAct (h.runSyncBody hdepth hm (by simp at hwait; exact hwait.2))

theorem closeEvaluation (h : Course b s) (m : ModuleId) (t : Traversal) :
    Visits b (ModuleGraph.closeEvaluation m) t s := by
  rw [Visits, ModuleGraph.closeEvaluation]
  simp only [EvalVisit.view_bind]
  split
  · refine ⟨_, _, rfl, h.foldl_updateCyclic (f := Cyclic.close m) (fun _ c => ?_) _⟩
    refine ⟨rfl, rfl, rfl, fun _ => .inl, fun hidle => ?_⟩
    rw [Cyclic.close] at hidle
    cases ho : c.order with
    | unset | turn => rw [ho] at hidle; exact hidle.elim
    | done => rwa [ho] at hidle
  · exact Visits.pure h

/-- The visits that may go deeper than there are idle modules return, up to a depth. -/
def VisitsReturn (b : Desk) (depth count : ℕ) : Prop :=
  ∀ m t s, Course b s → s.Has m → (idle s).card < count →
    Visits b (visitEvaluation (watchedHost depth) count m) t s

theorem visitRequest {count : ℕ} (ih : VisitsReturn b depth count) (h : Course b s)
    (hb : Desk.Ready b) (hm : s.Has m) (hr : request ∈ b.requested m)
    (hcard : (idle s).card < count) (t : Traversal) :
    Visits b (Machine.requestEvaluation (watchedHost depth) count m request) t s := by
  obtain ⟨n, s₁, hanswer, hpasses, hn⟩ := h.answer hb depth hr
  have hvisit := ih n t s₁ hpasses.course hn ((hpasses.card_idle_le h.cast).trans_lt hcard)
  obtain ⟨t₂, s₂, hrun, hpasses₂⟩ := hvisit.bind (f := fun _ => ModuleGraph.afterRequest m n)
    fun t' s' _ hp => hp.course.afterRequest
      (hp.has hpasses.course.cast (hpasses.has h.cast hm)) n t'
  exact ⟨t₂, s₂, visit_bind.2 (.inl ⟨n, t, s₁, EvalVisit.ofAct_eq_some.2 ⟨rfl, hanswer⟩, hrun⟩),
    hpasses.trans hpasses₂⟩

theorem visitRequests {count : ℕ} (ih : VisitsReturn b depth count) (hb : Desk.Ready b)
    (requests : List String) : ∀ {t s}, Course b s → s.Has m → (idle s).card < count →
      (∀ r ∈ requests, r ∈ b.requested m) →
        Visits b (requests.forM (Machine.requestEvaluation (watchedHost depth) count m)) t s := by
  induction requests with
  | nil => exact fun h _ _ _ => .pure h
  | cons r rest ihr =>
    intro t s h hm hcard hall
    rw [List.forall_mem_cons] at hall
    exact (visitRequest ih h hb hm hall.1 hcard t).bind fun t' s' _ hp =>
      ihr hp.course (hp.has h.cast hm) ((hp.card_idle_le h.cast).trans_lt hcard) hall.2

/-- A module that is idle is opened, visits what it requests, and is run or waits. -/
theorem visitIdle {count : ℕ} (ih : VisitsReturn b depth count) (h : Course b s)
    (hb : Desk.Ready b) (hdepth : 0 < depth) (hm : s.Has m)
    (hidle : (s.cyclic m).status.IsIdle) (hcard : (idle s).card < count + 1) (t : Traversal) :
    Visits b (do
      ModuleGraph.openEvaluation m
      (s.cyclic m).requested.forM (Machine.requestEvaluation (watchedHost depth) count m)
      ModuleGraph.runOrWait (watchedHost depth) m
      ModuleGraph.closeEvaluation m) t s := by
  rw [h.cast.requested_eq]
  refine (h.openEvaluation m t).bind fun t₁ s₁ hrun₁ hp₁ => ?_
  have hm₁ := hp₁.has h.cast hm
  have hawake : ¬(s₁.cyclic m).status.IsIdle := by
    cases hrun₁
    rw [Machine.cyclic_updateCyclic_self _ hm (h.cast.cyclic?_eq m)]
    exact id
  have hcard₁ : (idle s₁).card < count :=
    (hp₁.card_idle_lt h.cast hm hidle hawake).trans_le (Nat.le_of_lt_succ hcard)
  refine (visitRequests ih hb _ hp₁.course hm₁ hcard₁ fun _ => id).bind fun t₂ s₂ _ hp₂ => ?_
  have hm₂ := hp₂.has hp₁.course.cast hm₁
  exact (hp₂.course.runOrWait hdepth hm₂ t₂).bind fun t₃ s₃ _ hp₃ =>
    hp₃.course.closeEvaluation m t₃

/-- **Visits return.** A visit that may go deeper than there are idle modules returns. -/
theorem visit (hb : Desk.Ready b) (hdepth : 0 < depth) (count : ℕ) :
    VisitsReturn b depth count := by
  induction count with
  | zero => exact fun _ _ _ _ _ hcard => absurd hcard (Nat.not_lt_zero _)
  | succ count ih =>
    intro m t s h hm hcard
    rw [Visits, visitEvaluation, EvalVisit.view_bind, h.cast.cyclic?_eq m]
    dsimp only
    cases hstatus : (s.cyclic m).status with
    | evaluatingAsync | evaluated =>
      rw [h.cast.errors]
      exact Visits.pure h
    | evaluating => exact Visits.pure h
    | unlinked | linking | linked =>
      exact visitIdle ih h hb hdepth hm (by rw [hstatus]; trivial) hcard t

theorem startEvaluation (h : Course b s) (hb : Desk.Ready b) (hm : s.Has m)
    (hdepth : b.modules.size < depth) :
    ∃ p s', startEvaluation (watchedHost depth) m s = some (p, s') ∧ Passes b s s' := by
  have hnew : Passes b s s.newCapability.2 := h.newPromise (.pending [] false) rfl nofun
  have hask := hnew.trans (hnew.course.updateCyclic m
    (f := fun x => { x with capability := some s.newCapability.1 })
    fun _ => ⟨rfl, rfl, rfl, fun _ => .inl, id⟩)
  obtain ⟨t, s₂, hvisit, hpasses⟩ := Course.visit hb (Nat.zero_lt_of_lt hdepth) depth m ⟨[], 0⟩ _
    hask.course (hask.has h.cast hm)
    ((card_idle_le hask.course.cast).trans_lt hdepth)
  have hfinish : Passes b s₂
      (s₂.finishEvaluation (watchedHost depth) m s.newCapability.1 (.ok ()) t.stack) := by
    rw [Machine.finishEvaluation]
    split
    · exact hpasses.course.resolve depth _
    · exact .refl hpasses.course
  refine ⟨s.newCapability.1.promise, _, ?_, (hask.trans hpasses).trans hfinish⟩
  rw [ModuleGraph.startEvaluation, Run.make_bind, Run.update_bind]
  exact Run.bind_eq_some.2 ⟨(.ok (), t), s₂, hvisit, rfl⟩

/-- **Evaluation returns.** The evaluation of a linked module that nobody has asked for returns a
promise. -/
theorem evaluate (h : Course b s) (hb : Desk.Ready b) (hm : s.Has m)
    (hlinked : (s.cyclic m).status = .linked) (hnone : (s.cyclic m).capability = none)
    (hdepth : b.modules.size < depth) :
    ∃ p s', (watchedHost depth).evaluate m s = some (p, s') ∧ Passes b s s' := by
  obtain ⟨p, s', hstart, hpasses⟩ := h.startEvaluation hb hm hdepth
  have hcyc := h.cast.isCyclic m
  refine ⟨p, s', ?_, hpasses⟩
  rw [Host.evaluate, Run.view_bind, if_pos hcyc, evaluateCyclic, Run.view_bind,
    Machine.status_of_isCyclic hcyc, hlinked]
  simpa only [refusal?, if_true, pure_bind, Run.view_bind, hnone] using hstart

end Course

end ModuleGraph.FileSystem

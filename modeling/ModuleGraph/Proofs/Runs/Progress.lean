import ModuleGraph.Proofs.Runs.Rehearsal

/-! # Evaluation never stalls

A module that waits is told by its body, or by a module with an earlier turn that waits as well. So
when there is no job and no body that waits for a promise, nothing waits but modules whose cycles
have failed, and every promise of an evaluation is settled that the host has left to it. -/

namespace ModuleGraph

open Relation

variable {σ κ : Type} {journal : σ → Journal} {owner : κ → ModuleId} {reserved : Set PromiseId}
variable {hosts : Set (Host σ κ)} {host : Host σ κ}

namespace Machine

variable {s s' : Machine σ κ} {m x q : ModuleId} {p : PromiseId} {r : ReactionId}
variable {known : Finding → Prop} {spare : PromiseId → Prop}

/-! ## Quiet machines -/

/-- There is no job, and no promise holds the rest of a body. -/
structure Idle (s : Machine σ κ) : Prop where
  jobs : s.jobs = []
  bodies : ∀ p r m c code, s.Holds p r → s.handler? r ≠ some (.resumeBody m c code)

theorem Idle.not_due (hi : s.Idle) (h : s.Resting journal owner reserved known spare) :
    ¬s.Due [] x := fun hx => by
  have hw := h.coherent.wired
  have hheld : ∀ {r k}, s.handler? r = some k → k.isOfBody → ∃ p, s.Holds p r := fun hr hk => by
    obtain hp | ⟨y, hy⟩ := hw.kept _ _ hr hk
    · exact hp
    · rw [hi.jobs] at hy
      cases hy
  obtain ⟨r, hr⟩ := hw.due x hx
  obtain ⟨p, hp⟩ := hheld hr trivial
  obtain ⟨-, hb | ⟨r', code, hr'⟩⟩ := hw.waits p x ⟨r, hp, hr⟩
  · cases hb
  · obtain ⟨p', hp'⟩ := hheld hr' trivial
    exact hi.bodies p' r' x _ code hp' hr'

/-- A module that waits and whose cycle has not failed is due, or waits for one with an earlier turn
that is in the same position. -/
theorem Resting.waits_for (h : s.Resting journal owner reserved known spare) {k : Nat}
    (hx : (s.cyclic x).status = .evaluatingAsync) (hk : (s.cyclic x).order = .turn k)
    (hroot : ¬(s.graph journal .rest).RootFailed x) : s.Due [] x ∨
      ∃ d j, (s.cyclic d).status = .evaluatingAsync ∧ (s.cyclic d).order = .turn j ∧ j < k ∧
        ¬(s.graph journal .rest).RootFailed d := by
  obtain ⟨he, -, hturn⟩ := (h.sound.shaped x).waiting hx
  obtain ⟨n, hn, -, hle⟩ := h.sound.balanced x (.inr hx) List.not_mem_nil
  have hn' := hle hroot
  rw [show (s.graph journal .rest).debt = [] from rfl, List.count_nil, Nat.add_zero] at hn'
  cases Nat.eq_zero_or_pos n with
  | inl h0 =>
    rw [h0] at hn
    exact .inl ⟨hturn, he, hn, List.not_mem_nil⟩
  | inr hpos =>
    obtain ⟨d, hd, hparent⟩ := Graph.weight_pos_of_waits (Nat.lt_of_lt_of_le hpos hn')
    simp only [Graph.owes, Bool.and_eq_true, Option.isNone_iff_eq_none] at hd
    obtain ⟨⟨hdturn, hde⟩, -⟩ := hd
    have ha := h.sound.awaits d x hparent
    obtain ⟨j, hj⟩ := AsyncOrder.exists_turn hdturn
    have hds : (s.cyclic d).status = .evaluatingAsync := by
      obtain hs | hs | hs := Status.cases_awake (Graph.not_idle_of_turn h.sound hdturn)
      · cases (h.sound.open_iff d).1 hs
      · exact hs
      · exact (((h.sound.shaped d).complete hs hde).2.1 hdturn).elim
    refine .inr ⟨d, j, hds, hj, ha.turn j k hj hk, fun hf => ?_⟩
    -- The cycle of `d` is that of `x`, or `d` is its root.
    cases hq : (s.cyclic d).root with
    | none => exact ((h.sound.shaped d).waiting hds).2.1 hq
    | some q =>
      have hf : (s.cyclic ((s.cyclic d).root.getD d)).error ≠ none := hf
      rw [hq, Option.getD_some] at hf
      by_cases e : q = d
      · rw [e] at hf
        exact hf hde
      · refine hroot ?_
        change (s.cyclic ((s.cyclic x).root.getD x)).error ≠ none
        have hxq : (s.cyclic x).root = some q := ha.root q hq e
        rwa [hxq]

/-- At an idle machine, only modules wait whose cycles have failed. -/
theorem Idle.rootFailed (hi : s.Idle) (h : s.Resting journal owner reserved known spare) (k : Nat) :
    ∀ x, (s.cyclic x).status = .evaluatingAsync → (s.cyclic x).order = .turn k →
      (s.graph journal .rest).RootFailed x := by
  induction k using Nat.strong_induction_on with
  | _ k ih =>
    intro x hx hk
    by_contra hroot
    obtain hdue | ⟨d, j, hd, hj, hlt, hf⟩ := h.waits_for hx hk hroot
    · exact hi.not_due h hdue
    · exact hf (ih j hlt d hd hj)

/-! ## Promises of evaluations -/

/-- A promise that an evaluation of a module has returned earlier in a run. -/
def Returned (journal : σ → Journal) (reserved : Set PromiseId) (hosts : Set (Host σ κ))
    (s : Machine σ κ) (m : ModuleId) (p : PromiseId) : Prop :=
  ∃ s₀ s₁, ∃ host ∈ hosts, Reachable journal reserved hosts s₀ ∧ s₀.Has m ∧
    host.evaluate m s₀ = some (p, s₁) ∧ ReflTransGen (Step journal reserved hosts) s₁ s

theorem Returned.reachable (h : s.Returned journal reserved hosts m p) :
    Reachable journal reserved hosts s := by
  obtain ⟨s₀, s₁, host, hh, hr, hm, heval, hsteps⟩ := h
  exact (hr.move (.evaluate hh hm heval)).steps hsteps

theorem Returned.resting (hc : Conduct journal owner reserved hosts)
    (h : s.Returned journal reserved hosts m p) :
    s.Resting journal owner reserved (fun _ => False) fun _ => False := h.reachable.resting hc

/-- A lasting finding stays true in a run. -/
theorem Reachable.shows (hc : Conduct journal owner reserved hosts)
    (h : Reachable journal reserved hosts s)
    (hsteps : ReflTransGen (Step journal reserved hosts) s s') {f : Finding} (hl : f.IsLasting)
    (hf : s.Shows journal f) : s'.Shows journal f := by
  have hrest : s.Resting journal owner reserved (fun f => s.Shows journal f ∧ f.IsLasting)
      fun _ => False := (h.resting hc).recall fun _ hf => hf.1
  exact (hrest.steps hc (fun _ hf => hf.2) hsteps).coherent.known f ⟨hf, hl⟩

/-- A promise answers for a module as long as lasting findings stay true. -/
theorem AnsweredBy.kept (hp : s.AnsweredBy m p)
    (hkept : ∀ f : Finding, f.IsLasting → s.Shows journal f → s'.Shows journal f) :
    s'.AnsweredBy m p := by
  obtain hk | ⟨q, c, hq, hc, hr⟩ := hp
  · exact .inl (hkept (.kept m p) (fun _ => trivial) hk)
  · exact .inr ⟨q, c, hkept (.answered q c) (fun _ => trivial) hq, hc,
      hr.imp id (hkept (.rooted m q) fun _ => trivial)⟩

theorem AnsweredBy.steps (hc : Conduct journal owner reserved hosts)
    (h : Reachable journal reserved hosts s)
    (hsteps : ReflTransGen (Step journal reserved hosts) s s') (hp : s.AnsweredBy m p) :
    s'.AnsweredBy m p := hp.kept fun _ hl hf => h.shows hc hsteps hl hf

theorem Returned.answersFor (hc : Conduct journal owner reserved hosts)
    (h : s.Returned journal reserved hosts m p) : s.AnswersFor m p := by
  obtain ⟨s₀, s₁, host, hh, hr, hm, heval, hsteps⟩ := id h
  have hr₁ := hr.move (.evaluate hh hm heval)
  obtain ha | ⟨-, e, he⟩ := (evaluate_ends hc hh (hr.resting hc) hm heval).answered
  · obtain hk | hq := ha.steps hc hr₁ hsteps
    · obtain ⟨x, hx, -⟩ := (h.resting hc).coherent.leaves m p hk
      refine .inl ⟨x, hx, fun hcyc => ?_⟩
      rw [not_isCyclic_of_leaf hk] at hcyc
      cases hcyc
    · exact .inr hq
  · exact .inl ⟨_, hr₁.shows (f := .settled p (.rejected e)) hc hsteps (fun _ => trivial) he,
      fun _ => ⟨e, rfl⟩⟩

/-- **Evaluation never stalls.** When the queue is empty and no promise holds the rest of a body,
every reserved promise that an evaluation has returned is settled, and so is every one that answers
for an evaluation; no module is being evaluated, and a module that still waits belongs to a cycle
whose root has failed. -/
theorem evaluation_never_stalls (hc : Conduct journal owner reserved hosts)
    (h : Reachable journal reserved hosts s) (hjobs : s.jobs = [])
    (hbodies : ∀ p r m c code, s.Holds p r → s.handler? r ≠ some (.resumeBody m c code)) :
    (∀ m, ∀ p ∈ reserved, s.Returned journal reserved hosts m p →
        (s.promise p).settlement? ≠ none) ∧
      (∀ p ∈ reserved, s.Answers p → (s.promise p).settlement? ≠ none) ∧
      (∀ x, s.status x ≠ .evaluating) ∧
      ∀ x, s.status x = .evaluatingAsync → ∃ q e, s.cycleRoot? x = some q ∧
        s.status q = .evaluated ∧ s.evaluationError? q = some e := by
  have hrest := h.resting hc
  have hi : s.Idle := ⟨hjobs, hbodies⟩
  have hfailed : ∀ x, (s.cyclic x).status = .evaluatingAsync →
      ∃ q e, (s.cyclic x).root = some q ∧ (s.cyclic q).status = .evaluated ∧
        (s.cyclic q).error = some e := fun x hx => by
    obtain ⟨-, hroot, hturn⟩ := (hrest.sound.shaped x).waiting hx
    obtain ⟨k, hk⟩ := AsyncOrder.exists_turn hturn
    obtain ⟨q, hq⟩ := Option.ne_none_iff_exists'.1 hroot
    have hq' : (s.cyclic x).root = some q := hq
    have hf : (s.cyclic ((s.cyclic x).root.getD x)).error ≠ none := hi.rootFailed hrest k x hx hk
    rw [hq', Option.getD_some] at hf
    obtain ⟨e, he⟩ := Option.ne_none_iff_exists'.1 hf
    exact ⟨q, e, hq', (hrest.sound.shaped q).evaluated_of_failed hf, he⟩
  have hanswers : ∀ p ∈ reserved, s.Answers p → (s.promise p).settlement? ≠ none := by
    rintro p hp ⟨q, c, hcap, rfl⟩
    have ht := hrest.coherent.tells q c hcap hp
    have hl : ¬(Focus.rest (fun _ => False) fun _ => False).IsLate q := fun ⟨_, hl⟩ => nomatch hl
    have hasked : ¬((s.cyclic q).status.IsIdle ∨ (s.cyclic q).status = .evaluating) := fun hs => by
      obtain hnone | hlate := hrest.coherent.unasked q hs
      · rw [hnone] at hcap
        cases hcap
      · exact hl hlate
    obtain hs | hs | hs := Status.cases_awake fun hs => hasked (.inl hs)
    · exact (hasked (.inr hs)).elim
    · obtain ⟨q', e, hq, hqs, -⟩ := hfailed q hs
      obtain hown | hown := hrest.coherent.own q c hcap
      · rw [hown] at hq
        cases hq
      · rw [hown] at hq
        cases hq
        rw [hs] at hqs
        cases hqs
    · cases he : (s.cyclic q).error with
      | none =>
        obtain ⟨v, hv⟩ := ht.succeeded hl hs he
        rw [hv]
        exact fun e => nomatch e
      | some e =>
        rw [ht.failed hl hs e he]
        exact fun e => nomatch e
  refine ⟨fun m p hres hp => ?_, hanswers, fun x hx => ?_, fun x hx => ?_⟩
  · obtain ⟨y, hy, -⟩ | ⟨q, c, hcap, hp, -⟩ := hp.answersFor hc
    · rw [hy]
      exact fun e => nomatch e
    · exact hanswers p hres ⟨q, c, hcap, hp⟩
  · have hcyc := isCyclic_of_status (.inl hx)
    rw [status_of_isCyclic hcyc] at hx
    exact nomatch (hrest.sound.open_iff x).1 hx
  · have hcyc := isCyclic_of_status (.inr hx)
    rw [status_of_isCyclic hcyc] at hx
    obtain ⟨q, e, hq, hqs, hqe⟩ := hfailed x hx
    have hqc : s.isCyclic q := isCyclic_of_awake (by rw [hqs]; exact id)
    refine ⟨q, e, ?_, by rw [status_of_isCyclic hqc, hqs],
      by rw [evaluationError?_of_isCyclic hqc, hqe]⟩
    obtain ⟨c, hc⟩ := Option.isSome_iff_exists.1 hcyc
    rw [cycleRoot?, hc, Option.bind_some, ← cyclic_of_cyclic? hc, hq]

/-- The machine of the short run is idle, and the promise of its evaluation is settled. -/
theorem evaluation_never_stalls_sample :
    (Sample.evaluated .completes).jobs = [] ∧
      (Sample.evaluated .completes).Returned id Set.univ {Sample.host .completes} ⟨0⟩ ⟨0⟩ ∧
      ((Sample.evaluated .completes).promise ⟨0⟩).settlement? ≠ none ∧
      ∀ x, (Sample.evaluated .completes).status x ≠ .evaluating := by
  have hreturned :
      (Sample.evaluated .completes).Returned id Set.univ {Sample.host .completes} ⟨0⟩ ⟨0⟩ :=
    ⟨_, _, _, rfl, Sample.reachable_linked Set.univ rfl, Sample.has_linked rfl, rfl, .refl⟩
  have hnone : ∀ r k, (Sample.evaluated .completes).handler? r ≠ some k := fun r k hr => by
    have hsize : (Sample.evaluated .completes).reactions = #[] := rfl
    rw [handler?, reaction?, hsize] at hr
    cases hr
  obtain ⟨hsettled, -, hevaluating, -⟩ := evaluation_never_stalls
    ((sample .completes).conduct 4 Set.univ) (Sample.reachable_evaluated Set.univ rfl rfl) rfl
    fun _ r _ _ _ _ => hnone r _
  exact ⟨rfl, hreturned, hsettled ⟨0⟩ ⟨0⟩ (Set.mem_univ _) hreturned, hevaluating⟩

end Machine

/-! ## A promise that the host resolves itself -/

namespace Lone

variable {s : Machine Journal ModuleId}

/-- The host resolves the promise of the evaluation with a new promise, which stays pending. -/
def adopting : Machine Journal ModuleId :=
  ((waiting.newPromise (.pending [] false)).2).settle Lone.host.track ⟨⟨0⟩, true⟩
    (.ok (.promise waiting.nextPromise))

def told : Machine Journal ModuleId := (runNextJob Lone.host adopting).elim adopting (·.2)

def drained : Machine Journal ModuleId := (runNextJob Lone.host told).elim told (·.2)

/-- Nothing keeps the host from settling a promise that is not reserved. -/
theorem maySettle (hmade : s.Made ⟨0⟩) (hp : s.promise ⟨0⟩ = .pending [] false) :
    s.MaySettle ∅ ⟨0⟩ := by
  refine ⟨hmade, fun m ⟨r, hr, _⟩ => ?_, fun hres => (Set.notMem_empty _ hres).elim⟩
  rw [Machine.Holds, hp] at hr
  cases hr

theorem steps_drained : ReflTransGen (Machine.Step id ∅ {Lone.host}) waiting drained := by
  have hnew : Machine.Call id ∅ {Lone.host} waiting (waiting.newPromise (.pending [] false)).2 :=
    .newPromise waiting rfl
  have hsettle : Machine.Call id ∅ {Lone.host} (waiting.newPromise (.pending [] false)).2
      adopting := .settle _ _ rfl (maySettle (show 0 < 3 by decide) rfl)
  have htold : runNextJob Lone.host adopting = some (.ok true, told) := by rfl
  have hdrained : runNextJob Lone.host told = some (.ok true, drained) := by rfl
  refine .head (.move (.call hnew)) (.head (.move (.call hsettle)) ?_)
  exact .head (.job rfl htold) (.single (.job rfl hdrained))

theorem handler?_drained (r : ReactionId) :
    drained.handler? r = none ∨ drained.handler? r = some .passOn := by
  obtain ⟨i⟩ := r
  match i with
  | 0 => exact .inl rfl
  | 1 => exact .inr rfl
  | _ + 2 => exact .inl rfl

end Lone

/-- An evaluation may wait for the host. Before it has ended, the host resolves its promise with one
that stays pending. When the queue is empty then no promise holds the rest of a body, but the
promise of the evaluation is pending. -/
theorem host_may_stall_evaluation :
    Conduct id id ∅ {Lone.host} ∧ Lone.drained.Returned id ∅ {Lone.host} ⟨0⟩ ⟨0⟩ ∧
      Journal.Stable Lone.drained.host ∧ Lone.drained.jobs = [] ∧
      (∀ p r m c code, Lone.drained.Holds p r →
        Lone.drained.handler? r ≠ some (.resumeBody m c code)) ∧
      (Lone.drained.promise ⟨0⟩).settlement? = none := by
  refine ⟨lone.conduct 2 ∅, ?_, Lone.stable_of_all (by decide), by decide,
    fun p r m c code _ hr => ?_, by decide⟩
  · exact ⟨_, _, _, rfl, Lone.reachable_linked ∅, Lone.has_linked, Lone.evaluate_linked,
      Lone.steps_drained⟩
  · obtain h | h := Lone.handler?_drained r <;> rw [h] at hr <;> cases hr

end ModuleGraph

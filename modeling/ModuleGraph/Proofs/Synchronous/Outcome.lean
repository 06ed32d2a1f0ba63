import ModuleGraph.Proofs.Along
import ModuleGraph.Proofs.Synchronous.Visits

/-! # Evaluation of synchronous modules

If nothing that a module leads to has top-level await or waits for a body then its evaluation is one
plain walk, and the promise that it returns tells at once how the walk has ended. -/

namespace ModuleGraph

open Relation

variable {σ κ : Type} {journal : σ → Journal} {owner : κ → ModuleId} {reserved : Set PromiseId}
variable {hosts : Set (Host σ κ)} {host : Host σ κ}

namespace Machine

variable {b s s' : Machine σ κ} {m n x y : ModuleId} {p : PromiseId} {J : Journal}
variable {known : Finding → Prop} {spare : PromiseId → Prop}

def LeadsTo (s : Machine σ κ) (j : Journal) (m n : ModuleId) : Prop :=
  ReflTransGen (s.Requests j) m n

/-! ## The region -/

section Region

variable (h : s.Resting journal owner reserved known spare) (hstable : (journal s.host).Stable)
variable (hm : (s.status m).IsLinked)
include h hstable hm

/-- All that a linked module leads to is linked. -/
theorem Resting.linked_of_leadsTo (hx : s.LeadsTo (journal s.host) m x) :
    (s.status x).IsLinked := by
  induction hx with
  | refl => exact hm
  | tail _ hl ih =>
    obtain ⟨r, hr, hn⟩ := hl
    exact (h.coherent.linked id hstable).linked hstable ih hr hn

/-- What a linked module leads to is a region for a walk if nothing there waits. -/
theorem Resting.plain (hJ : journal s.host ⊆ J) (hJs : J.Stable)
    (hsync : ∀ x, s.LeadsTo (journal s.host) m x →
      s.hasAwait x = false ∧ s.status x ≠ .evaluatingAsync) :
    s.Plain J (s.LeadsTo (journal s.host) m) where
  stable := hJs
  rest x hx := nomatch (h.sound.open_iff x).1 hx
  linked x hx := h.linked_of_leadsTo hstable hm hx
  synchronous x hx := (hasAwait_eq s x).symm.trans (hsync x hx).1
  still x hx := (hsync x hx).2
  answered x hx r hr := by
    obtain ⟨n, hn, -⟩ :=
      (h.coherent.linked id hstable).answered x (h.linked_of_leadsTo hstable hm hx) r hr
    exact ⟨n, hJ hn, .tail hx ⟨r, hr, hn⟩⟩
  rooted x hx hst he := by
    obtain ⟨q, hq⟩ := Option.ne_none_iff_exists'.1 ((h.sound.shaped x).complete hst he).1
    have hmember := h.sound.member x q hq
    have hup : s.LeadsTo (journal s.host) m q := by
      refine ReflTransGen.trans hx ?_
      rw [← requests_graph s .rest]
      exact hmember.up
    have hqst : (s.cyclic q).status = .evaluated := hmember.finished.resolve_left fun hq' => by
      have hq' : (s.cyclic q).status = .evaluatingAsync := hq'
      refine (hsync q hup).2 ?_
      rw [status_of_isCyclic (isCyclic_of_awake (Status.awake_of_evaluatingAsync hq')), hq']
    exact ⟨q, hq, hqst, fun he => ((h.sound.shaped q).complete hqst he).2.1⟩
  kept x q hx hk := by
    obtain ⟨y, hy, -⟩ := h.coherent.leaves x q hk
    rw [hy]
    exact fun e => nomatch e

end Region

theorem Resting.past_of_done (h : s.Resting journal owner reserved known spare)
    (hn : (s.graph journal .rest).Done n) : s.past n = some (.ok ()) := by
  obtain ⟨q, v, hk, hv⟩ | ⟨q, hroot, hq⟩ := hn
  · exact past_of_leaf hk hv
  · obtain ⟨hst, he⟩ := h.sound.complete_member hq _ n rfl hroot
    have hcyclic : ∀ {x}, (s.cyclic x).status = .evaluated → s.isCyclic x := fun hx =>
      isCyclic_of_awake (Status.awake_of_evaluated hx)
    rw [past_of_root (hcyclic hst) hst he hroot (hcyclic hq.1),
      show (s.cyclic q).error = none from hq.2]

/-- What a module requests was evaluated without an error if the module itself was. -/
theorem Resting.past_of_request {R : ModuleId → Prop}
    (h : s.Resting journal owner reserved known spare) (hp : s.Plain J R) (hJ : journal s.host ⊆ J)
    (hx : R x) (hpast : s.past x = some (.ok ())) {r : String} (hr : r ∈ s.requested x)
    (hn : Entry.resolved x r n ∈ J) : s.past n = some (.ok ()) := by
  cases hcyc : s.isCyclic x with
  | false =>
    rw [requested_of_leaf hcyc] at hr
    cases hr
  | true =>
    have hbygone : s.Bygone [] x := bygone_of_past List.not_mem_nil hcyc hpast
    obtain ⟨-, -, hst, he⟩ := hbygone
    obtain ⟨q, hroot, hqst, -⟩ := hp.rooted x hx hst he
    have hqe : (s.cyclic q).error = none := by
      rw [past_of_root hcyc hst he hroot (isCyclic_of_awake (Status.awake_of_evaluated hqst))]
        at hpast
      cases hqe : (s.cyclic q).error with
      | none => rfl
      | some e =>
        rw [hqe] at hpast
        cases hpast
    rw [requested_eq] at hr
    obtain ⟨n', hn', hdone⟩ := h.sound.done_of_request ⟨hqst, hqe⟩ hroot hr
    rw [hp.stable x r n n' hn (hJ hn')]
    exact h.past_of_done hdone

theorem past_eq_none : s.past x = none ↔ s.status x ≠ .evaluated := by
  refine ⟨fun h hst => ?_, past_of_status_ne⟩
  rw [past, if_pos hst] at h
  split at h <;> cases h

/-! ## Evaluations -/

/-- An evaluation was one walk. The promise tells how the walk has ended, and nothing was queued if
the host has queued nothing. -/
structure Traversed (journal : σ → Journal) (host : Host σ κ) (m : ModuleId) (s : Machine σ κ)
    (p : PromiseId) (r : Except Value Unit) (s' : Machine σ κ) : Prop where
  walk : ∃ seen, s.terrain.Walk ⟨journal s.host, []⟩ (.module m) r ⟨journal s'.host, seen⟩
  told : (s'.promise p).settlement? = some (.ofResult r)
  jobs : host.Abstains p → s'.jobs = s.jobs

theorem evaluateLeaf_traversed (hc : Conduct journal owner reserved hosts) (hh : host ∈ hosts)
    (hm : (s.module m).kind.leaf? = some .linked)
    (hrun : evaluateLeaf host m s = some (p, s')) : ∃ r, s.Traversed journal host m p r s' := by
  obtain ⟨r, s₁, hr, rfl⟩ := evaluateLeaf_runs (p := p) hc hh hm hrun
  obtain ⟨k, hj, hruns⟩ := hr.noted
  have hfresh : s.status m ≠ .evaluated := by
    rw [status, ModuleKind.eq_of_leaf? hm]
    rintro ⟨⟩
  have hnone : s.terrain.Walk ⟨journal s.host, [m]⟩ (.requests m (s.requested m)) (.ok ())
      ⟨journal s.host, [m]⟩ := by
    rw [requested_of_leaf (not_isCyclic_of_leaf hm)]
    exact .done
  refine ⟨r, ⟨[m], ?_⟩, hr.told, fun ha => (hr.silent ha).jobs⟩
  rw [show journal (s₁.keepPromise m p).host = journal s₁.host from rfl, hj]
  exact .body (w := ⟨journal s.host, []⟩) List.not_mem_nil (past_of_status_ne hfresh) hnone hruns

/-- A promise to which nothing was attached is settled without a job. -/
theorem Ended.jobs_eq {y : Settlement} (h : s.Ended journal s' p y) (hp : ∀ r, ¬s.Holds p r) :
    s'.jobs = s.jobs := by
  rw [h.jobs, List.eq_nil_iff_forall_not_mem.2 hp]
  exact List.append_nil _

/-- When the visit of a module has returned or thrown, the promise of its evaluation is told. -/
theorem finishEvaluation_told (hc : Conduct journal owner reserved hosts) (hh : host ∈ hosts)
    {c : Capability} {r : Except Value Unit} (hd : s.Undecided c.promise)
    (hst : r = .ok () → s.status m = .evaluated) (stack : List ModuleId) :
    ∃ s₁, s.Refields s₁ ∧
      s₁.Ended journal (s.finishEvaluation host m c r stack) c.promise (.ofResult r) := by
  cases r with
  | ok u =>
    refine ⟨s, .refl s, ?_⟩
    rw [finishEvaluation, if_pos (hst rfl)]
    exact resolve_ended s c (fun _ e => by cases e) (not_isSpent_of_undecided hd)
  | error e =>
    have hr := refields_failAll s stack e
    refine ⟨s.failAll stack e, hr, reject_ended _ (hc.track host hh) c ?_⟩
    exact not_isSpent_of_undecided (by rwa [Undecided, hr.promise_eq])

theorem finishEvaluation_journal (hc : Conduct journal owner reserved hosts) (hh : host ∈ hosts)
    (s : Machine σ κ) (m : ModuleId) (c : Capability) (r : Except Value Unit)
    (stack : List ModuleId) :
    journal (s.finishEvaluation host m c r stack).host = journal s.host := by
  cases r with
  | ok u =>
    rw [finishEvaluation]
    split
    · exact (resolve_settles s (hc.track host hh) c .undefined).beside.journal
    · rfl
  | error e =>
    refine (reject_settles (s.failAll stack e) (hc.track host hh) c e).beside.journal.trans ?_
    rw [(refields_failAll s stack e).host]

/-- However a visit ends, the promises of the machine stay coherent. -/
theorem EvaluationEnds.coherent {o : Focus} {path : List Frame} {t : Traversal}
    {r : Except Value Unit} (h : s.EvaluationEnds journal owner reserved o path m r t s') :
    s'.Coherent journal owner reserved o := by
  cases r with
  | ok u =>
    obtain ⟨path', h⟩ := h.2.visiting
    exact h.coherent
  | error e =>
    obtain ⟨⟨above, h, -⟩, -⟩ := h
    exact h.coherent

theorem walked_ask (hm : s.Has m) (hcyc : s.isCyclic m) : s.Walked [] (s.ask m) where
  has x hx := (has_updateCyclic (s := s.newCapability.2) _).2 hx
  isCyclic x _ := isCyclic_ask s m x
  fields x _ _ := by
    by_cases e : x = m
    · subst e
      refine ⟨some ⟨s.nextPromise, true⟩, ?_⟩
      rw [fields_ask hm hcyc, Function.update_self]
    · exact ⟨(s.cyclic x).capability, cyclic_ask_of_ne hm hcyc e⟩
  leaf? x _ _ := leaf?_ask s m x
  settled p y hp := settlement?_ask hp
  passed x hx := nomatch hx

theorem startEvaluation_eq_some (hrun : startEvaluation host m s = some (p, s')) :
    ∃ result t s₁, visitEvaluation host host.depth m ⟨[], 0⟩ (s.ask m) = some ((result, t), s₁) ∧
      p = s.nextPromise ∧
        s' = s₁.finishEvaluation host m ⟨s.nextPromise, true⟩ result t.stack := by
  rw [startEvaluation, Run.make_bind, Run.update_bind, Run.bind_eq_some] at hrun
  obtain ⟨⟨result, t⟩, s₁, hvisit, hrest⟩ := hrun
  cases hrest
  exact ⟨result, t, s₁, hvisit, rfl, rfl⟩

theorem Resting.startEvaluation_traversed (hc : Conduct journal owner reserved hosts)
    (hh : host ∈ hosts) (h : s.Resting journal owner reserved known spare) (hres : p ∈ reserved)
    {R : ModuleId → Prop} (hp : s.Plain (journal s'.host) R) (hR : R m) (hcyc : s.isCyclic m)
    (hst : (s.cyclic m).status = .linked) (hrun : startEvaluation host m s = some (p, s')) :
    ∃ r, s.Traversed journal host m p r s' := by
  have hm := hp.has hR
  have hidle : (s.cyclic m).status.IsIdle := by
    rw [hst]
    trivial
  have hfresh : s.status m ≠ .evaluated := by
    rw [status_of_isCyclic hcyc, hst]
    exact fun e => nomatch e
  have hnone : (s.cyclic m).capability = none :=
    (h.coherent.unasked m (.inl hidle)).resolve_right fun ⟨_, hl⟩ => nomatch hl
  have hv := h.visitable_ask hm hcyc hnone (.inl ((h.sound.shaped m).idle hidle).1.2.1)
    (hp.linked m hR)
  obtain ⟨result, t, s₁, hvisit, rfl, rfl⟩ := startEvaluation_eq_some hrun
  have hends := visitEvaluation_ends hc hh rfl host.depth m [] _ t (s.ask m) s₁ result hv.visiting
    hv.has hv.edge hv.linked hv.late hvisit
  have hjournal := finishEvaluation_journal hc hh s₁ m ⟨s.nextPromise, true⟩ result t.stack
  -- The promise of the evaluation is undecided still.
  have hlate : (m, ⟨s.nextPromise, true⟩) ∈ [(m, (⟨s.nextPromise, true⟩ : Capability))] :=
    List.mem_singleton_self _
  have hcap := hends.coherent.late m _ hlate
  have hd := (hends.coherent.tells m _ hcap hres).waiting (.inl ⟨_, hlate⟩)
  have hmade := (hends.coherent.capable m _ hcap).2
  obtain ⟨⟨seen, hwalk, hok⟩, hsilent⟩ | ⟨hbygone, -⟩ := visitEvaluation_walks (p := s.nextPromise)
    hc hh rfl hp host.depth m [] _ t (s.ask m) s₁ result [] hv (walked_ask hm hcyc) hR
    (fun e he => by rw [hjournal]; exact he) hvisit
  · have hdone : result = .ok () → s₁.status m = .evaluated := by
      rintro rfl
      obtain ⟨new, k, -, hdone⟩ := hwalk.gain trivial
      have hseen := (hdone rfl).resolve_right fun hpast => by
        rw [show s.terrain.past m = none from past_of_status_ne hfresh] at hpast
        cases hpast
      obtain ⟨-, hclosed, -⟩ := hends.2.asked
      have hplain := (hok rfl).isPlain hseen hcyc
      obtain hst' | ⟨hst', -⟩ := hplain.status
      · obtain he | he := hclosed <;> rw [hst'] at he <;> cases he
      · rw [status_of_isCyclic (isCyclic_of_awake (Status.awake_of_evaluated hst')), hst']
    obtain ⟨s₂, hr, hend⟩ := finishEvaluation_told hc hh hd hdone t.stack
    refine ⟨result, ⟨seen, ?_⟩, ?_, fun ha => ?_⟩
    · rw [hjournal]
      exact hwalk
    · rw [← PromiseState.phase_snd, hend.settled (by rwa [Made, hr.promises])]
    · refine (hend.jobs_eq fun r hheld => ?_).trans (hr.jobs.trans (hsilent ha).jobs)
      have hheld := (hsilent ha).held r (by rwa [Holds, hr.promise_eq] at hheld)
      rw [Holds, promise_ask, if_pos rfl] at hheld
      cases hheld
  · exact (hfresh (by rw [status_of_isCyclic hcyc, hbygone.status])).elim

theorem leaf?_of_linked (hleaf : s.isCyclic m = false) (hst : s.status m = .linked) :
    (s.module m).kind.leaf? = some .linked := by
  rw [isCyclic, cyclic?_eq] at hleaf
  rw [status] at hst
  cases hk : (s.module m).kind with
  | source | foreign =>
    rw [hk] at hleaf
    cases hleaf
  | leaf state =>
    rw [hk] at hst
    cases state <;> cases hst
    rfl

theorem Resting.evaluate_traversed (hc : Conduct journal owner reserved hosts) (hh : host ∈ hosts)
    (h : s.Resting journal owner reserved known spare) (hres : p ∈ reserved) {R : ModuleId → Prop}
    (hp : s.Plain (journal s'.host) R) (hR : R m) (hst : s.status m = .linked)
    (hrun : host.evaluate m s = some (p, s')) : ∃ r, s.Traversed journal host m p r s' := by
  rw [Host.evaluate, Run.view_bind] at hrun
  cases hcyc : s.isCyclic m with
  | false =>
    rw [hcyc] at hrun
    exact evaluateLeaf_traversed hc hh (leaf?_of_linked hcyc hst) hrun
  | true =>
    have hst' : (s.cyclic m).status = .linked := (status_of_isCyclic hcyc).symm.trans hst
    have hidle : (s.cyclic m).status.IsIdle := by
      rw [hst']
      trivial
    have hnone : (s.cyclic m).capability = none :=
      (h.coherent.unasked m (.inl hidle)).resolve_right fun hl =>
        List.not_mem_nil hl.choose_spec
    have hstart : startEvaluation host m s = some (p, s') := by
      rw [hcyc, if_pos rfl, evaluateCyclic, Run.view_bind, hst] at hrun
      simpa only [refusal?, if_true, pure_bind, Run.view_bind, hnone] using hrun
    exact h.startEvaluation_traversed hc hh hres hp hR hcyc hst' hstart

/-- **Synchronous modules are evaluated depth first.** Suppose that nothing that a linked module
leads to has top-level await or waits for a body. Then the evaluation of the module is one walk
that sees each module once. It starts bodies of modules that the module leads to and that were not
evaluated before, each once, and all of them unless something throws. When it returns, the promise
is fulfilled or rejected with what was thrown, and no job was queued. The promise is reserved:
nobody has it before it is returned. -/
theorem synchronous_evaluation_is_depth_first (hc : Conduct journal owner reserved hosts)
    (hh : host ∈ hosts) (h : Reachable journal reserved hosts s) (hst : s.status m = .linked)
    (hsync : ∀ x, s.LeadsTo (journal s.host) m x →
      s.hasAwait x = false ∧ s.status x ≠ .evaluatingAsync)
    (hrun : host.evaluate m s = some (p, s')) (hres : p ∈ reserved)
    (hstable : (journal s'.host).Stable) :
    ∃ r k seen, s.terrain.Walk ⟨journal s.host, []⟩ (.module m) r ⟨journal s'.host, seen⟩ ∧
      journal s'.host = journal s.host ++ k ∧ k.started.Nodup ∧
      (∀ x ∈ k.started, s.LeadsTo (journal s.host) m x ∧ s.status x ≠ .evaluated) ∧
      (r = .ok () → ∀ x, s.LeadsTo (journal s.host) m x → s.status x ≠ .evaluated →
        x ∈ k.started) ∧
      (s'.promise p).settlement? = some (.ofResult r) ∧ (host.Abstains p → s'.jobs = s.jobs) := by
  have hlinked : (s.status m).IsLinked := by
    rw [hst]
    trivial
  have hJ : journal s.host ⊆ journal s'.host := fun e he => h.shows (f := .noted e) hc
    (.single (.move (.evaluate hh (has_of_isLinked hlinked) hrun))) (fun _ => trivial) he
  have hrest := h.resting hc
  have hp := hrest.plain (hstable.subset hJ) hlinked hJ hstable hsync
  obtain ⟨r, ⟨seen, hwalk⟩, htold, hjobs⟩ := hrest.evaluate_traversed hc hh hres hp .refl hst hrun
  -- Later answers make no difference to what the module leads to.
  have hlinks : ∀ {x}, ReflTransGen ((journal s'.host).Links s.requested) m x ↔
      s.LeadsTo (journal s.host) m x := fun {x} => by
    constructor
    · intro hx
      induction hx with
      | refl => exact .refl
      | tail _ hl ih =>
        obtain ⟨r, hr, hn⟩ := hl
        exact hp.found ih hr hn
    · exact ReflTransGen.mono (fun _ _ ⟨r, hr, hn⟩ => ⟨r, hr, hJ hn⟩) _ _
  obtain ⟨k, hk, hnodup, hstarted, hall⟩ := hwalk.started_exactly hstable fun x y hx hpast hl => by
    obtain ⟨r, hr, hn⟩ := hl
    exact hrest.past_of_request hp hJ (hlinks.1 hx) hpast hr hn
  exact ⟨r, k, seen, hwalk, hk, hnodup,
    fun x hx => ⟨hlinks.1 (hstarted x hx).2, past_eq_none.1 (hstarted x hx).1⟩,
    fun hr x hx hfresh => hall hr x (hlinks.2 hx) (past_eq_none.2 hfresh), htold, hjobs⟩

end Machine

/-! ## A short run -/

/-- A host that follows a plan queues nothing. -/
theorem Plan.abstains (plan : Plan) (depth : Nat) (p : PromiseId) :
    (plan.rehearsal depth).Abstains p := by
  have hC := Machine.Silent.composes (σ := Journal) (κ := ModuleId) p
  have hnote : ∀ entry, Within (Machine.Silent p) (Act.note (κ := ModuleId) entry) := fun entry =>
    .update fun _ => .of_eq rfl rfl
  have hperform : ∀ m, Within (Machine.Silent p) (plan.perform m) := fun m => by
    refine Within.bind hC (.view hC _) fun body => Within.bind hC (hnote _) fun _ => ?_
    cases body with
    | completes | waits => exact Within.bind hC (hnote _) fun _ => .pure hC _
    | throws => exact Within.bind hC (hnote _) fun _ => .throw hC _
  have herror : ∀ message, Within (Machine.Silent p)
      (Act.make fun s : Machine Journal ModuleId => s.newError .typeError message) := fun message =>
    .make fun _ => .of_eq rfl rfl
  refine ⟨fun referrer request => ?_, hperform, hperform, fun m =>
    Within.bind hC (hnote _) fun _ => hnote _⟩
  cases referrer with
  | script i => exact Within.bind hC (herror _) fun _ => .throw hC _
  | module m =>
    refine Within.bind hC (.view hC _) fun made => ?_
    cases made with
    | some n => exact Within.bind hC (hnote _) fun _ => .pure hC _
    | none =>
      exact Within.bind hC (herror _) fun _ => Within.bind hC (hnote _) fun _ => .throw hC _

namespace Machine

/-- The machine of the short run walks from module `0` through module `1` and the leaf `2`. -/
theorem synchronous_evaluation_is_depth_first_sample :
    let s := Sample.linked .completes
    let s' := Sample.evaluated .completes
    ∃ k seen, s.terrain.Walk ⟨s.host, []⟩ (.module ⟨0⟩) (.ok ()) ⟨s.host ++ k, seen⟩ ∧
      Journal.started k = [⟨1⟩, ⟨2⟩, ⟨0⟩] ∧
      (s'.promise ⟨0⟩).settlement? = some (.fulfilled .undefined) ∧ s'.jobs = s.jobs := by
  have hsync : ∀ x, (Sample.linked .completes).hasAwait x = false ∧
      (Sample.linked .completes).status x ≠ .evaluatingAsync := by
    intro x
    by_cases hx : (Sample.linked .completes).Has x
    · obtain ⟨i⟩ := x
      match i, (show i < 3 from hx) with
      | 0, _ | 1, _ | 2, _ => decide
    · rw [hasAwait, cyclic?_eq, status, module_of_not_has hx]
      decide
  have hfulfilled : ((Sample.evaluated .completes).promise ⟨0⟩).settlement? =
      some (.fulfilled .undefined) := rfl
  obtain ⟨r, k, seen, hwalk, hk, -, -, -, htold, hjobs⟩ := synchronous_evaluation_is_depth_first
    ((sample .completes).conduct 4 Set.univ) rfl (Sample.reachable_linked Set.univ rfl)
    (show (Sample.linked .completes).status ⟨0⟩ = .linked by decide) (fun x _ => hsync x)
    (show (Sample.host .completes).evaluate ⟨0⟩ (Sample.linked .completes) =
      some (⟨0⟩, Sample.evaluated .completes) from rfl)
    (Set.mem_univ _) (Sample.stable_of_all .completes (by decide))
  have hr : r = .ok () := by
    cases r with
    | ok u => rfl
    | error e =>
      rw [hfulfilled] at htold
      cases htold
  rw [hr, hk] at hwalk
  refine ⟨k, seen, hwalk, ?_, hfulfilled, hjobs (Plan.abstains _ 4 _)⟩
  have hdrop : k = (Sample.evaluated .completes).host.drop
      (Sample.linked .completes).host.length := by
    rw [show (Sample.evaluated .completes).host = _ from hk]
    exact List.drop_left.symm
  rw [hdrop]
  rfl

end Machine

end ModuleGraph

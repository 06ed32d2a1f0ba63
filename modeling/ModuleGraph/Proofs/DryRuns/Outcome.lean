import Mathlib
import ModuleGraph.Proofs.DryRuns.Jobs
import ModuleGraph.Proofs.Runs.Outcomes

/-! # What a dry run comes to

The evaluation of linked files is watched from its beginning. Since nothing throws, no module fails,
and a module that waits is told. So when the queue is empty the entry is done, and with it each file
that was loaded. -/

namespace ModuleGraph.FileSystem

open Relation CommandLine

variable {b : Desk} {s s' : Watched} {m n x : ModuleId} {p : PromiseId} {request : String}
variable {w : Workspace × Journal} {j : Journal} {depth : ℕ} {known : Finding → Prop}

/-! ## The beginning -/

namespace Desk

def answers (b : Desk) : Journal :=
  (List.range b.modules.size).flatMap fun i => (b.requested ⟨i⟩).filterMap fun r =>
    (target? b ⟨i⟩ r).map (.resolved ⟨i⟩ r)

theorem mem_answers {e : Entry} : e ∈ answers b ↔
    ∃ m r n, b.Has m ∧ r ∈ b.requested m ∧ target? b m r = some n ∧ e = .resolved m r n := by
  simp only [answers, List.mem_flatMap, List.mem_range, List.mem_filterMap,
    Option.map_eq_some_iff]
  constructor
  · rintro ⟨i, hi, r, hr, n, hn, rfl⟩
    exact ⟨⟨i⟩, r, n, hi, hr, hn, rfl⟩
  · rintro ⟨m, r, n, hm, hr, hn, rfl⟩
    exact ⟨m.index, hm, r, hr, n, hn, rfl⟩

theorem answers_answers (b : Desk) : (answers b).Answers := fun e he => by
  obtain ⟨m, r, n, -, -, -, rfl⟩ := mem_answers.1 he
  rfl

abbrev beginning (b : Desk) : Watched := b.watched (answers b)

theorem Stock.fresh (h : Stock b) (m : ModuleId) : (b.cyclic m).IsFresh ∧
    (b.cyclic m).capability = none := by
  obtain ⟨_, _, _, _, _, hc⟩ := h.fields m
  rw [Machine.cyclic_of_cyclic? hc]
  exact ⟨⟨rfl, rfl, rfl, rfl⟩, rfl⟩

namespace Ready

theorem cast (h : Ready b) : Cast b (beginning b) where
  size := rfl
  label _ := rfl
  requested _ := rfl
  hasAwait _ := rfl
  own m hm := (h.furnished m hm).own
  errors m := (h.stock.fresh m).1.1
  parents m x hx := by
    have hx : x ∈ (b.cyclic m).parents := hx
    rw [(h.stock.fresh m).1.2.2.2] at hx
    cases hx

theorem chronicle (h : Ready b) : Chronicle b (beginning b).host where
  tree := rfl
  current := rfl
  loaded := rfl
  events := by
    refine h.stock.still.events.trans (List.filterMap_eq_nil_iff.2 fun e he => ?_).symm
    obtain ⟨m, r, n, -, -, -, rfl⟩ := mem_answers.1 he
    rfl
  fair j e hp := by
    obtain ⟨m, r, n, -, -, hn, rfl⟩ := mem_answers.1
      (hp.subset (List.mem_append_right _ (List.mem_singleton_self e)))
    exact hn

theorem pledges (h : Ready b) : Pledges b (answers b) (beginning b) := by
  have hmade : ∀ p, ¬(beginning b).Made p := fun p => by
    have hp : (beginning b).promises = #[] := h.stock.still.promises
    rw [Machine.Made, hp]
    exact Nat.not_lt_zero _
  have hreaction : ∀ r, (beginning b).reaction? r = none := fun r => by
    have hr : (beginning b).reactions = #[] := h.stock.still.reactions
    rw [Machine.reaction?, hr]
    rfl
  refine ⟨fun p y hy => ?_, fun r reaction hr => ?_, fun job hjob => ?_, fun p r hr => ?_⟩
  · refine (hmade p (Machine.made_of_resolved fun hu => ?_)).elim
    rw [← PromiseState.phase_snd, hu] at hy
    cases hy
  · rw [hreaction] at hr
    cases hr
  · have hjobs : (beginning b).jobs = [] := h.stock.still.jobs
    rw [hjobs] at hjob
    cases hjob
  · exact (hmade p (Machine.made_of_holds hr)).elim

theorem course (h : Ready b) : Course b (beginning b) := ⟨h.cast, h.chronicle, h.pledges⟩

theorem unevaluated (h : Ready b) : (beginning b).Unevaluated Prod.snd where
  idle m := by
    by_cases hm : b.Has m
    · have hs : (b.cyclic m).status = .linked := by rw [← h.stock.status_eq, h.linked m hm]
      change (b.cyclic m).status.IsIdle
      rw [hs]
      trivial
    · exact (Machine.untouched_of_isNew (Machine.isNew_of_not_has (s := b) hm)).idle
  fresh m := (h.stock.fresh m).1
  capability m := (h.stock.fresh m).2
  leaf m p hm := by
    obtain ⟨record, env, status, visit, ancestor, -, hk⟩ := h.stock.source m
    have hm : (b.module m).kind.leaf? = some (.evaluated p) := hm
    rw [hk] at hm
    cases hm
  promises := h.stock.still.promises
  reactions := h.stock.still.reactions
  joins := h.stock.still.joins
  imports := h.stock.still.imports
  jobs := h.stock.still.jobs
  answers := answers_answers b

theorem linkClosed (h : Ready b) : (beginning b).LinkClosed Prod.snd where
  blank m hm := by
    refine (Machine.untouched_of_isNew (Machine.isNew_of_not_has (s := b) fun hhas => hm ?_)).blank
    change (b.status m).IsLinked
    rw [h.linked m hhas]
    trivial
  answered m hm r hr := by
    have hhas : b.Has m := Machine.has_of_isLinked (s := b) hm
    obtain ⟨n, hn, -⟩ := (h.furnished m hhas).targets r hr
    refine ⟨n, mem_answers.2 ⟨m, r, n, hhas, hr, hn, rfl⟩, ?_⟩
    change (b.status n).IsLinked
    rw [h.linked n (h.stock.has_target hn)]
    trivial
  runnable m _ := by
    obtain ⟨record, env, status, visit, ancestor, -, hk⟩ := h.stock.source m
    change (b.module m).kind.IsRunnable
    rw [hk]
    trivial

theorem resting (h : Ready b) :
    (beginning b).Resting Prod.snd id Set.univ (fun _ => False) fun _ => False :=
  ⟨h.unevaluated.sound, h.unevaluated.coherent h.linkClosed⟩

end Ready

end Desk

/-! ## The end -/

def Desk.endOf (s : Desk) (m : ModuleId) : BodyEvent :=
  if s.hasAwait m then .resumed m else .started m

theorem Chronicle.endOf_mem (h : Chronicle b w) (hj : j <+: w.2) (hm : Entry.ended m ∈ j) :
    b.endOf m ∈ j.filterMap (eventOf b) := by
  rw [Desk.endOf]
  split
  · rename_i hawait
    exact List.mem_filterMap.2 ⟨_, hm, if_pos hawait⟩
  · obtain ⟨k, k', rfl⟩ := List.append_of_mem hm
    have hp : (k ++ [.ended m]) <+: w.2 := by
      refine .trans ⟨k', ?_⟩ hj
      rw [List.append_assoc, List.singleton_append]
    obtain ⟨before, hbefore⟩ := h.fair k _ hp
    exact List.mem_filterMap.2 ⟨_, List.mem_append_left _ hbefore, rfl⟩

def Desk.Asks (s : Desk) (m n : ModuleId) : Prop :=
  ∃ r ∈ s.requested m, loadSpecifier (.module m) r s = some (.ok n, s)

theorem Desk.Ready.asks_iff (hb : Desk.Ready b) :
    b.Asks m n ↔ ∃ r ∈ b.requested m, target? b m r = some n := by
  refine exists_congr fun r => and_congr_right fun hr => ⟨fun hload => ?_, loadSpecifier_of_target⟩
  obtain ⟨n', hn', -⟩ := (hb.furnished m (Machine.has_of_requested hr)).targets r hr
  rw [loadSpecifier_of_target hn'] at hload
  cases hload
  exact hn'

section Rest

variable (h : Course b s) (hrest : s.Resting Prod.snd id Set.univ known fun _ => False)
include h hrest

/-- When the queue is empty, the promises of evaluations are fulfilled. -/
theorem Course.fulfilled (hjobs : s.jobs = []) {c : Capability}
    (hc : (s.cyclic m).capability = some c) : s.promise c.promise = .fulfilled .undefined := by
  have hidle : s.Idle := ⟨hjobs, fun p r m c code hr => (h.pledges.held p r hr).2 m c code⟩
  have hlate : ¬(Focus.rest known fun _ => False).IsLate m := fun ⟨_, hl⟩ => nomatch hl
  have hasked : ¬((s.cyclic m).status.IsIdle ∨ (s.cyclic m).status = .evaluating) := fun hs => by
    obtain hnone | hl := hrest.coherent.unasked m hs
    · rw [hnone] at hc
      cases hc
    · exact hlate hl
  obtain hs | hs | hs := Status.cases_awake fun hs => hasked (.inl hs)
  · exact (hasked (.inr hs)).elim
  · -- What waits at an idle machine belongs to a cycle that has failed.
    obtain ⟨-, -, hturn⟩ := (hrest.sound.shaped m).waiting hs
    obtain ⟨k, hk⟩ := AsyncOrder.exists_turn hturn
    exact (hidle.rootFailed hrest k m hs hk (h.cast.errors _)).elim
  · obtain ⟨v, hv⟩ := (hrest.coherent.tells m c hc trivial).succeeded hlate hs (h.cast.errors m)
    cases h.pledges.settled _ _ hv
    cases hp : s.promise c.promise with
    | fulfilled v =>
      rw [hp] at hv
      cases hv
      rfl
    | pending | rejected => rw [hp] at hv; cases hv

/-- What is requested from a module that is done is done. -/
theorem Course.done_of_target (hm : (s.graph Prod.snd .rest).Done m) (hr : request ∈ b.requested m)
    (hn : Desk.target? b m request = some n) : (s.graph Prod.snd .rest).Done n := by
  obtain ⟨n', hn', hdone⟩ := (Machine.finished_of_done hrest.sound hm).2 request
    (by rwa [h.cast.requested])
  obtain rfl : n' = n := Option.some.inj ((h.chronicle.target hn').symm.trans hn)
  exact hdone

/-- When the entry is done, each file that was loaded is done. -/
theorem Course.finished (hb : Desk.Ready b) (hentry : (s.graph Prod.snd .rest).Done ⟨0⟩) :
    ∀ m, b.Has m → s.Finished Prod.snd m := by
  suffices hall : ∀ i, ∀ m : ModuleId, m.index = i → b.Has m → (s.graph Prod.snd .rest).Done m from
    fun m hm => (Machine.finished_of_done hrest.sound (hall _ m rfl hm)).1
  intro i
  induction i using Nat.strong_induction_on with
  | _ i ih =>
    intro m hi hm
    by_cases hzero : m.index = 0
    · obtain rfl : m = ⟨0⟩ := congrArg ModuleId.mk hzero
      exact hentry
    · obtain ⟨x, r, hlt, hr, ht⟩ := hb.stock.asked m hm hzero
      exact h.done_of_target hrest (ih x.index (by omega) x rfl (Nat.lt_trans hlt hm)) hr ht

/-- The events tell how often the bodies of the files that were loaded have started. -/
theorem Course.count_started (hb : Desk.Ready b)
    (hall : ∀ m, b.Has m → s.Finished Prod.snd m) (m : ModuleId) :
    s.host.1.events.count (.started m) = if m ∈ b.host.loaded.map (·.2) then 1 else 0 := by
  rw [h.chronicle.count_started]
  split
  · rename_i hm
    exact (hall m (hb.stock.mem_loaded.1 hm)).starts (h.cast.isCyclic m)
  · rename_i hm
    by_contra hstarts
    exact hm (hb.stock.mem_loaded.2 ((h.cast.has m).1 (hrest.coherent.visited m hstarts).has))

theorem Course.begun_eq (hb : Desk.Ready b) (hall : ∀ m, b.Has m → s.Finished Prod.snd m) :
    begun s = b.host.loaded.length := by
  have hperm : (startedModules s.host.1.events).Perm (b.host.loaded.map (·.2)) := by
    refine (List.perm_ext_iff_of_nodup (h.nodup_startedModules hrest) hb.stock.nodup_loaded).2
      fun m => ⟨fun hm => hb.stock.mem_loaded.2 (h.has_of_started hrest hm), fun hm => ?_⟩
    rw [h.mem_startedModules hrest]
    exact (hall m (hb.stock.mem_loaded.1 hm)).starts (h.cast.isCyclic m)
  rw [begun, ← length_startedModules, hperm.length_eq, List.length_map]

/-- When a body starts, what its module asks for has ended, apart from its own cycle. -/
theorem Course.prepared (hb : Desk.Ready b) {l₁ l₂ : List BodyEvent}
    (hevents : s.host.1.events = l₁ ++ .started m :: l₂) (hn : b.Asks m n)
    (hout : ¬ReflTransGen b.Asks n m) : b.endOf n ∈ l₁ := by
  rw [h.chronicle.events, List.filterMap_eq_append_iff] at hevents
  obtain ⟨j₁, j₂, hj, rfl, htail⟩ := hevents
  obtain ⟨k₁, e, k₂, rfl, hnone, he, -⟩ := List.filterMap_eq_cons_iff.1 htail
  -- The events before the start are those that the journal tells before it.
  have hbefore : j₁.filterMap (eventOf b) = (j₁ ++ k₁).filterMap (eventOf b) := by
    rw [List.filterMap_append, List.filterMap_eq_nil_iff.2 hnone, List.append_nil]
  obtain ⟨before, rfl⟩ : ∃ before, e = .started m before := by
    cases e with
    | started m' before =>
      cases he
      exact ⟨before, rfl⟩
    | ended m' =>
      rw [eventOf] at he
      split at he <;> cases he
    | resolved | refused | threw | waited => cases he
  have hprefix : (j₁ ++ k₁ ++ [.started m before]) <+: s.host.2 :=
    ⟨k₂, by rw [hj]; simp only [List.append_assoc, List.singleton_append]⟩
  have hpast : (j₁ ++ k₁) <+: s.host.2 := (List.prefix_append _ _).trans hprefix
  obtain ⟨hcyclic, hrequested⟩ := h.chronicle.fair _ _ hprefix
  have hasks : ∀ {x y}, before.Requests (j₁ ++ k₁) x y → b.Asks x y := by
    rintro x y ⟨r, hr, hy⟩
    exact hb.asks_iff.2 ⟨r, hrequested x ▸ hr, h.chronicle.target (hpast.subset hy)⟩
  obtain ⟨r, hr, ht⟩ := hb.asks_iff.1 hn
  obtain ⟨n', hn', -, hcycle⟩ :=
    hrest.coherent.logged _ m before hprefix (hcyclic m) r (by rwa [hrequested])
  obtain rfl : n' = n :=
    Option.some.inj ((h.chronicle.target (hpast.subset hn')).symm.trans ht)
  obtain ⟨hended, -⟩ | hreach := hcycle (hcyclic n')
  · rw [hbefore]
    exact h.chronicle.endOf_mem hpast hended
  · exact (hout (hreach.lift id fun _ _ => hasks)).elim

end Rest

/-! ## Whole runs -/

/-- A dry run of the linked files has come to its end. -/
structure Desk.Completes (s : Desk) (p : PromiseId) (s' : Desk) : Prop where
  queue : s'.jobs = []
  promise : s'.promise p = .fulfilled .undefined
  loaded : s'.host.loaded = s.host.loaded
  /-- There is one module for each file that was loaded. -/
  files : s.host.loaded.keys.Nodup
  modules : (s.host.loaded.map (·.2)).Nodup
  made : ∀ m, m ∈ s.host.loaded.map (·.2) ↔ s.Has m
  /-- Whatever specifiers lead to a file, they mean its module. -/
  answered : ∀ m, ∀ r ∈ s.requested m, ∃ path place n,
    resolveSpecifier s.host.current.text (pathOf s (.module m)) r = some path ∧
      s.host.tree.locate s.host.current path = .ok place ∧ (place, n) ∈ s.host.loaded ∧
        loadSpecifier (.module m) r s = some (.ok n, s)
  started : ∀ m, s'.host.events.count (.started m) =
    if m ∈ s.host.loaded.map (·.2) then 1 else 0
  ended : ∀ m ∈ s.host.loaded.map (·.2), s.endOf m ∈ s'.host.events
  evaluated : ∀ m ∈ s.host.loaded.map (·.2),
    s'.status m = .evaluated ∧ s'.evaluationError? m = none
  /-- A body starts when what its module asks for has ended, apart from its own cycle. -/
  prepared : ∀ l₁ m l₂, s'.host.events = l₁ ++ .started m :: l₂ →
    ∀ n, s.Asks m n → ¬ReflTransGen s.Asks n m → s.endOf n ∈ l₁

theorem Course.completes (h : Course b s)
    (hrest : s.Resting Prod.snd id Set.univ known fun _ => False) (hb : Desk.Ready b)
    (hjobs : s.jobs = []) (hp : s.AnsweredBy ⟨0⟩ p) :
    b.Completes p (Watched.desk s) ∧ begun s = b.host.loaded.length := by
  have hcyclic := h.cast.isCyclic ⟨0⟩
  obtain hleaf | ⟨q, c, hc, rfl, hq⟩ := hp
  · rw [Machine.not_isCyclic_of_leaf hleaf] at hcyclic
    cases hcyclic
  have hfulfilled := h.fulfilled hrest hjobs hc
  have hall := h.finished hrest hb
    (hrest.done_of_fulfilled (.inr ⟨q, c, hc, rfl, hq⟩) trivial hcyclic hfulfilled)
  refine ⟨⟨hjobs, hfulfilled, h.chronicle.loaded, hb.stock.places, hb.stock.nodup_loaded,
    fun m => hb.stock.mem_loaded, fun m r hr => ?_, h.count_started hrest hb hall, fun m hm => ?_,
    fun m hm => ?_, fun l₁ m l₂ hevents n => h.prepared hrest hb hevents⟩,
    h.begun_eq hrest hb hall⟩
  · obtain ⟨n, hn, -⟩ := (hb.furnished m (Machine.has_of_requested hr)).targets r hr
    obtain ⟨path, place, hpath, hplace, hloaded⟩ := Desk.place_of_target hn
    exact ⟨path, place, n, hpath, hplace, Table.mem_of_get? hloaded, loadSpecifier_of_target hn⟩
  · have hended := (hall m (hb.stock.mem_loaded.1 hm)).ended (h.cast.isCyclic m)
    have hmem := h.chronicle.endOf_mem List.prefix_rfl hended
    rwa [← h.chronicle.events] at hmem
  · have hfinished := hall m (hb.stock.mem_loaded.1 hm)
    exact ⟨hfinished.status, hfinished.error⟩

/-- The evaluation of linked files and the jobs after it come to an end. -/
theorem Desk.Ready.completes (hb : Desk.Ready b) (hentry : b.Has ⟨0⟩)
    (hdepth : 2 * b.modules.size < depth) : ∃ p s₁ s', (dryHost depth).evaluate ⟨0⟩ b =
      some (p, s₁) ∧ (dryHost depth).runJobs s₁ = some (.ok (), s') ∧ b.Completes p s' ∧
        startedCount s'.host.events = b.host.loaded.length := by
  have hlinked : (b.cyclic ⟨0⟩).status = .linked := by
    rw [← hb.stock.status_eq, hb.linked _ hentry]
  have hpos : 0 < depth := by omega
  have hsize : b.modules.size < depth := by omega
  obtain ⟨p, s₁, hrun, hpasses⟩ := hb.course.evaluate hb hentry hlinked (hb.stock.fresh _).2 hsize
  have hevaluation := Machine.evaluate_ends (watchedHost_conduct depth Set.univ) rfl hb.resting
    hentry
    hrun
  have hrest := hevaluation.resting.resting (fun _ hf => hf.elim)
  -- The promise answers for the entry to the end.
  have hrest₁ : s₁.Resting Prod.snd id Set.univ (fun f => s₁.Shows Prod.snd f ∧ f.IsLasting)
      fun _ => False := hrest.recall fun _ hf => hf.1
  have hload : s₁.load ≤ 2 * begun s₁ := by
    have hpace := hpasses.pace
    have hnone : (beginning b).load = 0 := by
      rw [Machine.load, hb.unevaluated.jobs, hb.unevaluated.promises]
      rfl
    have hzero : begun (beginning b) = 0 := by
      rw [begun]
      exact congrArg startedCount hb.stock.still.events
    omega
  have hbegun := hpasses.course.begun_le hrest₁
  obtain ⟨s', hdrain, hcourse, hrest', hjobs⟩ := Course.drain (fun _ hf => hf.2) hpos depth s₁
    hpasses.course hrest₁ (by omega)
  have hanswered : s'.AnsweredBy ⟨0⟩ p := by
    obtain hp | ⟨hunlinked, -⟩ := hevaluation.answered
    · exact hp.kept fun f hl hf => hrest'.coherent.known f ⟨hf, hl⟩
    · refine (hunlinked ?_).elim
      change (b.status ⟨0⟩).IsLinked
      rw [hb.linked _ hentry]
      trivial
  obtain ⟨hcompletes, hcount⟩ := hcourse.completes hrest' hb hjobs hanswered
  exact ⟨p, _, _, (watchedHost_keeps depth).evaluate _ _ _ _ hrun, hdrain, hcompletes, hcount⟩

/-- The depth of a tree is enough for two jobs of each file. -/
theorem Tree.length_lt_depth (t : Tree) (imports : ℕ) :
    2 * (t.length + imports) < t.depth imports := by
  have hle : (t.length + imports + 1) * 2 ≤ t.depth imports := Nat.mul_le_mul_left _ (by omega)
  omega

/-- **A graph that links completes.** When the file at a path and all that it leads to were linked,
the command that evaluates it starts the body of each file that was loaded once, after what its
module asks for outside of its own cycle has ended. No job throws, the queue drains, and the command
reports the number of files and that the entry was fulfilled. -/
theorem evaluation_of_linked_files_completes (t : Tree) (current : Place) (path : String)
    (verbose : Bool) {m : ModuleId} {s : Desk} (hlinked :
      loadAndLink (dryHost (t.depth 0)) path (.initial (.initial t current)) =
        some (.ok m, s)) :
    ∃ p s₁ s', (dryHost (t.depth 0)).evaluate m s = some (p, s₁) ∧
      (dryHost (t.depth 0)).runJobs s₁ = some (.ok (), s') ∧ s.Completes p s' ∧
      Invocation.run t current ⟨.evaluate, path, verbose⟩ =
        some (.success (eventLines s' 0 s'.host.events ++ [toString s.host.loaded.length ++
          " modules evaluated, entry fulfilled undefined"])) := by
  obtain ⟨hready, rfl, hentry, htree, -⟩ := Desk.ready_of_loadAndLink hlinked
  have hdepth : 2 * s.modules.size < t.depth 0 := by
    have hsize := hready.stock.size_le
    have hlt := t.length_lt_depth 0
    rw [htree] at hsize
    omega
  obtain ⟨p, s₁, s', hevaluate, hjobs, hcompletes, hcount⟩ := hready.completes hentry hdepth
  refine ⟨p, s₁, s', hevaluate, hjobs, hcompletes, ?_⟩
  have houtcome : evaluationOutcome p s' = .success (eventLines s' 0 s'.host.events ++
      [toString s.host.loaded.length ++ " modules evaluated, entry fulfilled undefined"]) := by
    have hdescribe : s'.describePromise p = "fulfilled undefined" := by
      rw [Machine.describePromise, hcompletes.promise]
      rfl
    rw [evaluationOutcome, hcompletes.promise, summaryLine, hcount, hdescribe, String.append_assoc]
    rfl
  have hshow : showEvaluation (dryHost (t.depth 0)) ⟨0⟩ s = some (evaluationOutcome p s', s') :=
    Run.bind_eq_some.2 ⟨p, s₁, hevaluate, Run.bind_eq_some.2 ⟨.ok (), s', hjobs, rfl⟩⟩
  have hperform : perform (dryHost (t.depth 0)) .evaluate path (.initial (.initial t current)) =
      some (evaluationOutcome p s', s') := Run.bind_eq_some.2 ⟨.ok ⟨0⟩, s, hlinked, hshow⟩
  rw [Invocation.run, if_neg nofun, StateT.run, hperform, houtcome, Option.map_some]

/-- Two files that import each other; the second one waits. -/
def Tree.sample : Tree :=
  [(["a"], .file (.text "" (some [.importFrom "./b" []]))),
    (["b"], .file (.text "" (some [.importFrom "./a" [], .statement (.expr (.await .atom))])))]

theorem evaluation_of_sample_completes : ∃ s : Desk,
    loadAndLink (dryHost (Tree.sample.depth 0)) "a" (.initial (.initial Tree.sample [])) =
      some (.ok ⟨0⟩, s) ∧ s.host.loaded = [(["a"], ⟨0⟩), (["b"], ⟨1⟩)] ∧
      ∃ p s₁ s', (dryHost (Tree.sample.depth 0)).evaluate ⟨0⟩ s = some (p, s₁) ∧
        (dryHost (Tree.sample.depth 0)).runJobs s₁ = some (.ok (), s') ∧ s.Completes p s' := by
  have hload :
      (loadAndLink (dryHost (Tree.sample.depth 0)) "a" (.initial (.initial Tree.sample []))).map
        (fun r => (r.1.toOption, r.2.host.loaded)) =
          some (some ⟨0⟩, [(["a"], ⟨0⟩), (["b"], ⟨1⟩)]) := by cbv
  obtain ⟨⟨x, s⟩, hrun, he⟩ := Option.map_eq_some_iff.1 hload
  obtain ⟨hentry, hloaded⟩ := Prod.mk.inj he
  cases x with
  | error e => cases hentry
  | ok m =>
    obtain rfl : m = ⟨0⟩ := Option.some.inj hentry
    obtain ⟨p, s₁, s', hevaluate, hjobs, hcompletes, -⟩ :=
      evaluation_of_linked_files_completes Tree.sample [] "a" false hrun
    exact ⟨s, hrun, hloaded, p, s₁, s', hevaluate, hjobs, hcompletes⟩

/-- The module that waits starts first, although the other one is the entry. -/
example : Invocation.run Tree.sample [] ⟨.evaluate, "a", false⟩ =
    some (.success ["  1. evaluate b (awaiting)", "     resume b", "  2. evaluate a",
      "2 modules evaluated, entry fulfilled undefined"]) := by cbv

end ModuleGraph.FileSystem

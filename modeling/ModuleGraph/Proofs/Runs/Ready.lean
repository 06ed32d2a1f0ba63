import ModuleGraph.Proofs.Runs.Telling

/-! # Running the modules that are ready

The modules that have been gathered run one after the other, in the order of their turns. Whatever
one of them waits for has an earlier turn, so it is complete by then, unless it has failed and the
module with it. -/

namespace ModuleGraph

open Relation

variable {σ κ : Type} {journal : σ → Journal} {owner : κ → ModuleId} {reserved : Set PromiseId}
variable {hosts : Set (Host σ κ)} {host : Host σ κ}

/-! ## The order of turns -/

namespace AsyncOrder

theorem exists_turn {a : AsyncOrder} (h : a.isTurn) : ∃ k, a = .turn k := by
  cases a with
  | turn k => exact ⟨k, rfl⟩
  | unset | done => cases h

theorem isBefore_trans (a b c : AsyncOrder) (h : a.isBefore b) (h' : b.isBefore c) :
    a.isBefore c := by
  cases a <;> cases b <;> cases c <;> simp_all [isBefore, isTurn]
  omega

theorem isBefore_total (a b : AsyncOrder) : a.isBefore b || b.isBefore a := by
  cases a <;> cases b <;> simp [isBefore, isTurn]
  omega

end AsyncOrder

namespace Machine

variable {s s' : Machine σ κ} {o : Focus} {a : Agenda} {m x d : ModuleId} {e : Value}
variable {ready ready' released debt doom rest excused : List ModuleId}

def NotAfter (s : Machine σ κ) (x y : ModuleId) : Prop :=
  ∀ j k, (s.cyclic x).order = .turn j → (s.cyclic y).order = .turn k → j ≤ k

theorem sorted_sortByTurn (s : Machine σ κ) (ready : List ModuleId) :
    (s.sortByTurn ready).Pairwise s.NotAfter := by
  have h := List.pairwise_mergeSort
    (fun x y z => AsyncOrder.isBefore_trans (s.cyclic x).order (s.cyclic y).order
    (s.cyclic z).order)
    (fun x y => AsyncOrder.isBefore_total (s.cyclic x).order (s.cyclic y).order) ready
  refine h.imp fun hb j k hj hk => ?_
  rw [hj, hk] at hb
  simpa [AsyncOrder.isBefore] using hb

/-! ## Modules that have failed -/

theorem Working.excuse (h : s.Working journal owner reserved o ready released debt doom)
    {excused : List ModuleId} (hx : ∀ x ∈ excused, x ∈ o.excused)
    (hd : ∀ x, s.Due excused x → s.Due o.excused x) :
    s.Working journal owner reserved { o with excused } ready released debt doom :=
  { h with
    coherent := h.coherent.untold (.refl s)
      (fun _ ht => ⟨ht.begun, ht.failed, fun e => ht.owed (hx _ e)⟩) hd (fun _ hl => hl)
      fun _ => .inl ⟨rfl, rfl, rfl⟩
    idle := ⟨h.idle.busy, h.idle.leaf, h.idle.linked⟩ }

/-- A module that is evaluated is not due, whether it is excused or not. -/
theorem Working.excuse_evaluated
    (h : s.Working journal owner reserved { o with excused := [m] } ready released debt doom)
    (hm : (s.cyclic m).status = .evaluated) :
    s.Working journal owner reserved { o with excused := [] } ready released debt doom := by
  refine h.excuse (fun _ hx => nomatch hx) fun x hx => ⟨hx.1, hx.2.1, hx.2.2.1, fun hxm => ?_⟩
  rw [List.mem_singleton.1 hxm] at hx
  exact ((h.sound.shaped m).complete hm hx.2.1).2.1 hx.1

theorem Working.skip (h : s.Working journal owner reserved o ready released debt doom)
    (hm : (s.cyclic m).error ≠ none) {ready' released' excused : List ModuleId}
    (hready : ∀ x, x ∈ ready' ↔ x ∈ ready ∧ x ≠ m)
    (hreleased : ∀ x, x ∈ released' ↔ x ∈ released ∧ x ≠ m)
    (hexcused : ∀ x ∈ o.excused, x = m ∨ x ∈ excused) (hx : ∀ x ∈ excused, x ∈ o.excused) :
    s.Working journal owner reserved { o with excused } ready' released' debt doom := by
  have hd : ∀ x, s.Due excused x → s.Due o.excused x := fun x hx =>
    ⟨hx.1, hx.2.1, hx.2.2.1, fun hxe => (hexcused x hxe).elim
      (fun e => hm (by rw [← e]; exact hx.2.1)) hx.2.2.2⟩
  exact { h.excuse hx hd with sound := h.sound.skip hm hready hreleased }

/-! ## The modules that are ready -/

structure Running (journal : σ → Journal) (owner : κ → ModuleId) (reserved : Set PromiseId)
    (o : Focus) (ready released : List ModuleId) (s : Machine σ κ) : Prop extends
    s.Gathering journal owner reserved o ready released [] where
  sorted : ready.Pairwise s.NotAfter

namespace Running

theorem not_mem_rest (h : s.Running journal owner reserved o (m :: rest) released) : m ∉ rest :=
  (List.nodup_cons.1 h.nodup).1

theorem mem_rest_iff (h : s.Running journal owner reserved o (m :: rest) released) (x : ModuleId) :
    x ∈ rest ↔ x ∈ m :: rest ∧ x ≠ m := by
  rw [List.mem_cons]
  constructor
  · exact fun hx => ⟨.inr hx, fun e => h.not_mem_rest (e ▸ hx)⟩
  · exact fun ⟨hx, hne⟩ => hx.resolve_left hne

/-- The first module is off the list, and all others have the turns that they had, or none. -/
theorem next (h : s.Running journal owner reserved o (m :: rest) released)
    (hw : s'.Working journal owner reserved { o with excused := rest } rest
      (released.filter (· ≠ m)) [] [])
    (hawait : ∀ x ∈ rest, (s'.cyclic x).hasAwait = (s.cyclic x).hasAwait)
    (horder : ∀ x ∈ rest, ∀ k, (s'.cyclic x).order = .turn k → (s.cyclic x).order = .turn k) :
    s'.Running journal owner reserved o rest (released.filter (· ≠ m)) := by
  refine ⟨⟨hw, (List.nodup_cons.1 h.nodup).2, fun x => ?_, fun _ hx => nomatch hx⟩, ?_⟩
  · rw [List.mem_filter, h.mem_released, decide_eq_true_eq]
    constructor
    · rintro ⟨⟨hx, ha⟩, hne⟩
      have hx := (h.mem_rest_iff x).2 ⟨hx, hne⟩
      exact ⟨hx, (hawait x hx).trans ha⟩
    · rintro ⟨hx, ha⟩
      have hx' := (h.mem_rest_iff x).1 hx
      exact ⟨⟨hx'.1, (hawait x hx).symm.trans ha⟩, hx'.2⟩
  · refine (List.pairwise_cons.1 h.sorted).2.imp_of_mem fun hx hy hb j k hj hk => ?_
    exact hb j k (horder _ hx j hj) (horder _ hy k hk)

/-- A module that is ready and has not failed waits for nothing more, and has not run. -/
theorem waits (h : s.Running journal owner reserved o (m :: rest) released)
    (hm : (s.cyclic m).status ≠ .evaluated) : (s.cyclic m).status = .evaluatingAsync ∧
      (s.cyclic m).error = none ∧ (s.cyclic m).pending = some 0 ∧
        (journal s.host).starts m = 0 := by
  have he : (s.cyclic m).error = none := by_contra fun he =>
    hm ((h.sound.shaped m).evaluated_of_failed he)
  obtain ⟨hs, hp, hstarts⟩ := h.sound.ready m List.mem_cons_self he
  exact ⟨hs, he, hp, hstarts⟩

theorem awaited (h : s.Running journal owner reserved o (m :: rest) released)
    (hm : (s.cyclic m).status ≠ .evaluated) (hd : m ∈ (s.cyclic d).parents) :
    (s.graph journal (.run (m :: rest) released [] [])).Complete d := by
  obtain ⟨hs, he, hp, -⟩ := h.waits hm
  refine h.sound.awaited_complete (h.sound.balanced m (.inr hs) List.not_mem_nil) hp he
    List.not_mem_nil hd fun hreleased => ?_
  -- Nothing that is as good as done is still to be run: its turn would come first.
  have ha := h.sound.awaits d m hd
  obtain ⟨k, hk⟩ : ∃ k, (s.cyclic m).order = .turn k :=
    AsyncOrder.exists_turn ((h.sound.shaped m).waiting hs).2.2
  have hdready := ((h.mem_released d).1 hreleased).1
  have hde : (s.cyclic d).error = none := by_contra fun hf =>
    (ha.failed hf).elim (fun hf => hf he) List.not_mem_nil
  obtain ⟨hds, -, -⟩ := h.sound.ready d hdready hde
  obtain ⟨j, hj⟩ : ∃ j, (s.cyclic d).order = .turn j :=
    AsyncOrder.exists_turn ((h.sound.shaped d).waiting hds).2.2
  have hlt := ha.turn j k hj hk
  obtain rfl | hrest := List.mem_cons.1 hdready
  · rw [hj] at hk
    cases hk
    exact lt_irrefl _ hlt
  · have := (List.pairwise_cons.1 h.sorted).1 d hrest k j hk hj
    omega

/-- The graph of the machine when the first module is about to run. -/
theorem picked (h : s.Running journal owner reserved o (m :: rest) released) :
    (s.graph journal (.run rest released [] [])).Sound := by
  refine h.sound.pick h.mem_rest_iff fun _ => ?_
  by_cases ha : (s.cyclic m).hasAwait
  · exact .inl ha
  · exact .inr ((h.mem_released m).2 ⟨List.mem_cons_self, Bool.eq_false_of_not_eq_true ha⟩)

/-- The body of the first module may be started. -/
theorem startable (h : s.Running journal owner reserved o (m :: rest) released)
    (hm : (s.cyclic m).status ≠ .evaluated) :
    (s.graph journal (.run rest released [] [])).Startable m := by
  obtain ⟨hs, -, hp, hstarts⟩ := h.waits hm
  refine ⟨?_, hstarts, fun d hd => h.awaited hm hd, fun _ _ => ⟨hp, ?_⟩, h.not_mem_rest⟩
  · change ¬(s.cyclic m).status.IsIdle
    rw [hs]
    exact id
  · by_cases ha : (s.cyclic m).hasAwait
    · exact .inl ha
    · exact .inr ((h.mem_released m).2 ⟨List.mem_cons_self, Bool.eq_false_of_not_eq_true ha⟩)

theorem prepared (h : s.Running journal owner reserved o (m :: rest) released)
    (hm : (s.cyclic m).status ≠ .evaluated) (hc : s.isCyclic m) :
    s.Prepared (journal s.host) m := by
  have hroot := ((h.sound.shaped m).waiting (h.waits hm).1).2.1
  obtain ⟨q, hq⟩ := Option.ne_none_iff_exists'.1 hroot
  exact prepared_of_provided h.sound hc (h.sound.provided hq fun d hd => h.awaited hm hd)

/-- A module of the list that has failed is passed over. -/
theorem pass (h : s.Running journal owner reserved o (m :: rest) released)
    (hm : (s.cyclic m).status = .evaluated) :
    s.Running journal owner reserved o rest (released.filter (· ≠ m)) := by
  have he : (s.cyclic m).error ≠ none := fun he => by
    have := (h.sound.ready m List.mem_cons_self he).1
    rw [show ((s.graph journal _).fields m).status = .evaluated from hm] at this
    cases this
  refine h.next (h.skip he h.mem_rest_iff (fun x => ?_) (fun x hx => List.mem_cons.1 hx)
    fun _ => List.mem_cons_of_mem _) (fun _ _ => rfl) fun _ _ _ hk => hk
  rw [List.mem_filter, decide_eq_true_eq]

end Running

/-- The modules that have been gathered are put in the order of their turns. -/
theorem Gathering.running (h : s.Gathering journal owner reserved o ready released []) :
    s.Running journal owner reserved o (s.sortByTurn ready) released := by
  have hperm : (s.sortByTurn ready).Perm ready := List.mergeSort_perm ready _
  have hd : ∀ x, s.Due (s.sortByTurn ready) x → s.Due ready x := fun x hx =>
    ⟨hx.1, hx.2.1, hx.2.2.1, fun hxe => hx.2.2.2 (hperm.mem_iff.2 hxe)⟩
  refine ⟨⟨{ h.excuse (fun _ => hperm.mem_iff.1) hd with sound := ?_ },
    hperm.nodup_iff.2 h.nodup, fun x => ?_, h.told⟩, s.sorted_sortByTurn ready⟩
  · exact h.sound.beside (fun _ _ _ _ hx => .inr hx)
      (fun x hx _ => h.sound.balanced x hx List.not_mem_nil)
      (fun x hx _ => hperm.mem_iff.1 hx) fun x ho he hp hx => h.sound.running x ho he hp
        fun hxr => hx (hperm.mem_iff.2 hxr)
  · rw [h.mem_released, hperm.mem_iff]

/-! ## Running a module of the list -/

/-- What stays of a module whose evaluation has begun when a body runs. -/
theorem ran_field {β : Type} (φ : Cyclic → β)
    (hφ : ∀ c a k, φ { c with ancestor := a, capability := k } = φ c)
    (hr : (s.graph journal a).Ran m (s'.graph journal a)) (hx : ¬(s.cyclic x).status.IsIdle) :
    φ (s'.cyclic x) = φ (s.cyclic x) := by
  obtain ⟨i, c, hfields⟩ := hr.fields hx
  have : s'.cyclic x = { s.cyclic x with ancestor := i, capability := c } := hfields
  rw [this, hφ]

theorem Working.ran (h : s.Working journal owner reserved o ready released debt doom)
    (hs : (s.graph journal (.run ready' released debt doom)).Sound)
    (hr : (s.graph journal (.run ready' released debt doom)).Ran m
      (s'.graph journal (.run ready' released debt doom)))
    (hm : (s.graph journal (.run ready' released debt doom)).Startable m)
    (hc : s'.Coherent journal owner reserved { o with excused }) :
    s'.Working journal owner reserved { o with excused } ready' released debt doom := by
  refine ⟨hs.ran hr hm, hc, ⟨h.idle.busy, h.idle.leaf, h.idle.linked⟩, fun x hx => ?_⟩
  have hxs := h.late x hx
  rw [ran_field (·.status) (fun _ _ _ => rfl) hr (Status.awake_of_evaluated hxs), hxs]

namespace Running

variable {released : List ModuleId}

/-- What a body leaves of the modules that are still to be run. -/
theorem keeps (h : s.Running journal owner reserved o (m :: rest) released)
    (hr : (s.graph journal a).Ran m (s'.graph journal a)) (hx : x ∈ m :: rest) :
    (s'.cyclic x).hasAwait = (s.cyclic x).hasAwait ∧
      (s'.cyclic x).order = (s.cyclic x).order ∧ (s'.cyclic x).status = (s.cyclic x).status := by
  have hi := h.awake_ready hx
  exact ⟨ran_field (·.hasAwait) (fun _ _ _ => rfl) hr hi,
    ran_field (·.order) (fun _ _ _ => rfl) hr hi,
    ran_field (·.status) (fun _ _ _ => rfl) hr hi⟩

/-- The first module has top-level await: its body is started, and it is told when it has ended. -/
theorem startAsync (hc : Conduct journal owner reserved hosts) (hh : host ∈ hosts)
    (h : s.Running journal owner reserved o (m :: rest) released)
    (hm : (s.cyclic m).status ≠ .evaluated) (ha : (s.cyclic m).hasAwait)
    (hrun : startAsyncBody host m s = some ((), s')) :
    s'.Running journal owner reserved o rest (released.filter (· ≠ m)) := by
  obtain ⟨hs, he, hp, -⟩ := h.waits hm
  have hmi : ¬(s.cyclic m).status.IsIdle := h.awake_ready List.mem_cons_self
  have hturn : (s.cyclic m).order.isTurn := ((h.sound.shaped m).waiting hs).2.2
  have htell : s.MayTell rest m := by
    refine ⟨⟨isCyclic_of_awake hmi, fun ho => ?_, fun _ _ => hp⟩, fun ho => ?_, h.not_mem_rest⟩ <;>
      rw [ho] at hturn <;> cases hturn
  have hfilter : released.filter (· ≠ m) = released := by
    refine List.filter_eq_self.2 fun x hx => decide_eq_true fun e => ?_
    have := ((h.mem_released x).1 hx).2
    rw [e, ha] at this
    cases this
  obtain ⟨hcoh, hran⟩ := startAsyncBody_body hc hh h.coherent h.idle.linked h.picked
    (h.startable hm) (h.prepared hm) htell h.idle.busy hrun
  refine h.next ?_ (fun x hx => (h.keeps hran (List.mem_cons_of_mem _ hx)).1) fun x hx k hk => ?_
  · rw [hfilter]
    exact h.toWorking.ran h.picked hran (h.startable hm) hcoh
  · rw [← (h.keeps hran (List.mem_cons_of_mem _ hx)).2.1, hk]

/-- The first module has no top-level await: its body is run, and nobody has been told yet. -/
theorem ranSync (hc : Conduct journal owner reserved hosts) (hh : host ∈ hosts)
    (h : s.Running journal owner reserved o (m :: rest) released)
    (hm : (s.cyclic m).status ≠ .evaluated) (ha : (s.cyclic m).hasAwait = false)
    {result : Except Value Unit} (hrun : runSyncBody host m s = some (result, s')) :
    s'.Working journal owner reserved { o with excused := m :: rest } rest released [] [] ∧
      (s.graph journal (.run rest released [] [])).Ran m
        (s'.graph journal (.run rest released [] [])) ∧
      (result = .ok () → (journal s'.host).starts m = 1 ∧ Entry.ended m ∈ journal s'.host) ∧
      ∀ e, result = .error e → s'.Throws journal m e := by
  obtain ⟨hcoh, hran, hended, hthrew⟩ := runSyncBody_body hc hh h.coherent h.idle.linked h.picked
    (h.startable hm) (h.prepared hm) ha hrun
  refine ⟨h.toWorking.ran h.picked hran (h.startable hm) hcoh, hran, fun hr => ?_, hthrew⟩
  rw [← Nat.zero_add 1, ← (h.waits hm).2.2.2]
  exact hended hr

/-- The first module has no top-level await: its body is run. Then the module is complete, or it has
failed with all that wait for it. -/
theorem runSync (hc : Conduct journal owner reserved hosts) (hh : host ∈ hosts)
    (h : s.Running journal owner reserved o (m :: rest) released)
    (hm : (s.cyclic m).status ≠ .evaluated) (ha : (s.cyclic m).hasAwait = false)
    {result : Except Value Unit} (hrun : runSyncBody host m s = some (result, s')) :
    match result with
    | .ok () => ((s'.complete m).answer host m).Running journal owner reserved o rest
        (released.filter (· ≠ m))
    | .error e => (s'.bodyFailed host m e).Running journal owner reserved o rest
        (released.filter (· ≠ m)) := by
  obtain ⟨hs, -, -, -⟩ := h.waits hm
  obtain ⟨hw, hran, hended, hthrew⟩ := h.ranSync hc hh hm ha hrun
  have hs' : (s'.cyclic m).status = .evaluatingAsync :=
    (h.keeps hran List.mem_cons_self).2.2.trans hs
  have hmreleased : m ∈ released := (h.mem_released m).2 ⟨List.mem_cons_self, ha⟩
  have hfilter : ∀ x, x ∈ released.filter (· ≠ m) ↔ x ∈ released ∧ x ≠ m := fun x => by
    rw [List.mem_filter, decide_eq_true_eq]
  have hrest : ∀ x ∈ rest, x ≠ m := fun x hx => ((h.mem_rest_iff x).1 hx).2
  cases result with
  | ok =>
    obtain ⟨hstarts', hend⟩ := hended rfl
    -- The parents of a module that is as good as done were told before it ran.
    have howes : (s'.graph journal (.run rest released [] [])).owes m = false := by
      simp [Graph.owes, graph, Agenda.run, hmreleased]
    have hdebt : ∀ x, ([] : List ModuleId).count x = ([] : List ModuleId).count x +
        (s'.graph journal (.run rest released [] [])).weight x m := fun x => by
      rw [Graph.weight, howes]
      rfl
    obtain ⟨hw', hdone⟩ := hw.done hc hh hs' hstarts' hend h.not_mem_rest
      (fun x hx => (hfilter x).trans (and_iff_left hx)) hdebt
      (fun x hx => (h.mem_rest_iff x).trans (and_iff_left hx)) (List.mem_cons_self ..)
    have hfield : ∀ x ∈ rest, ((s'.complete m).answer host m).cyclic x = s'.cyclic x := by
      intro x hx
      rw [hdone.fields, Function.update_of_ne (hrest x hx)]
    refine h.next hw' (fun x hx => ?_) fun x hx k hk => ?_
    · rw [hfield x hx]
      exact (h.keeps hran (List.mem_cons_of_mem _ hx)).1
    · rwa [hfield x hx, (h.keeps hran (List.mem_cons_of_mem _ hx)).2.1] at hk
  | error e =>
    have hfailing : s'.Failing journal e m := ⟨(hthrew e rfl).blames, .inl hs'⟩
    have hf := bodyFailed_ends hc hh hw hfailing
    refine h.next (hf.skip (hf.all m (List.mem_singleton_self m)) (fun x => ?_) hfilter
      (fun x hx => List.mem_cons.1 hx) fun _ => List.mem_cons_of_mem _) (fun x hx => ?_)
        fun x hx k hk => ?_
    · exact (and_iff_left_of_imp (hrest x)).symm
    · rw [hf.field (·.hasAwait) fun _ _ => rfl]
      exact (h.keeps hran (List.mem_cons_of_mem _ hx)).1
    · rw [← (h.keeps hran (List.mem_cons_of_mem _ hx)).2.1]
      exact hf.turn hk

end Running

/-- The first module of the list has run, or it was passed over. -/
theorem runReady_ends (hc : Conduct journal owner reserved hosts) (hh : host ∈ hosts)
    (h : s.Running journal owner reserved o (m :: rest) released)
    (hrun : runReady host m s = some ((), s')) :
    s'.Running journal owner reserved o rest (released.filter (· ≠ m)) := by
  rw [runReady, Run.view_bind] at hrun
  split at hrun
  · rename_i hm
    cases hrun
    exact h.pass hm
  rename_i hm
  split at hrun
  · rename_i ha
    exact h.startAsync hc hh hm ha hrun
  rename_i ha
  obtain ⟨result, s₁, hbody, hrun⟩ := Run.bind_eq_some.1 hrun
  have hs := h.runSync hc hh hm (Bool.eq_false_of_not_eq_true ha) hbody
  cases result <;> cases hrun <;> exact hs

/-- The first modules of the list have run, or they were passed over. -/
theorem runMany_ends (hc : Conduct journal owner reserved hosts) (hh : host ∈ hosts)
    (done : List ModuleId) : ∀ (released : List ModuleId) (s s' : Machine σ κ),
      s.Running journal owner reserved o (done ++ rest) released →
      (done.forM (runReady host)) s = some ((), s') →
        ∃ released', s'.Running journal owner reserved o rest released' := by
  induction done with
  | nil =>
    intro released s s' h hrun
    cases hrun
    exact ⟨released, h⟩
  | cons m done ih =>
    intro released s s' h hrun
    obtain ⟨⟨⟩, s₁, hfirst, hrest⟩ := Run.bind_eq_some.1 hrun
    exact ih _ _ _ (runReady_ends hc hh h hfirst) hrest

/-- All modules of the list have run, or they were passed over. -/
theorem runAll_ends (hc : Conduct journal owner reserved hosts) (hh : host ∈ hosts)
    (h : s.Running journal owner reserved o ready released)
    (hrun : (ready.forM (runReady host)) s = some ((), s')) :
    s'.Working journal owner reserved { o with excused := [] } [] [] [] [] := by
  rw [← List.append_nil ready] at h
  obtain ⟨released', h'⟩ := runMany_ends hc hh ready released s s' h hrun
  have hnil : released' = [] := List.eq_nil_iff_forall_not_mem.2 fun x hx =>
    List.not_mem_nil ((h'.mem_released x).1 hx).1
  exact hnil ▸ h'.toWorking

/-! ## The end of a body that was waited for -/

/-- A module whose body has come to its end waits, unless it has failed. -/
theorem Working.waits_of_ended (h : s.Working journal owner reserved o ready released debt doom)
    (hm : s.Begun m) (hend : Entry.ended m ∈ journal s.host)
    (hs : (s.cyclic m).status ≠ .evaluated) : (s.cyclic m).status = .evaluatingAsync :=
  (h.awake fun hi => h.coherent.noted m hend (((h.sound.shaped m).idle hi).2 hm.1)).resolve_right hs

/-- A module whose body has come to its end is complete, and all that wait for it are to be told. -/
theorem Working.gathering (hc : Conduct journal owner reserved hosts) (hh : host ∈ hosts)
    (h : s.Working journal owner reserved { o with excused := [m] } [] [] [] [])
    (hend : Entry.ended m ∈ journal s.host) (hwaits : (s.cyclic m).status = .evaluatingAsync) :
    ((s.complete m).answer host m).Gathering journal owner reserved o [] []
        (((s.complete m).answer host m).cyclic m).parents ∧
      (((s.complete m).answer host m).cyclic m).status = .evaluated := by
  have hmi : ¬(s.cyclic m).status.IsIdle := Status.awake_of_evaluatingAsync hwaits
  obtain ⟨he, -, hturn⟩ := (h.sound.shaped m).waiting hwaits
  have hone : (journal s.host).starts m = 1 :=
    Nat.le_antisymm ((h.sound.shaped m).once hmi) (Nat.pos_of_ne_zero (h.coherent.noted m hend))
  -- The module owes its end to all of its parents, and none of them has run.
  have howes : (s.graph journal (.run [] [] [] [])).owes m := by
    have hturn : (s.cyclic m).order.isTurn := hturn
    have he : (s.cyclic m).error = none := he
    simp [Graph.owes, graph, Agenda.run, hturn, he]
  have hdebt : ∀ x, (s.cyclic m).parents.count x = ([] : List ModuleId).count x +
      (s.graph journal (.run [] [] [] [])).weight x m := fun x => by
    rw [Graph.weight, howes, List.count_nil, Nat.zero_add]
    rfl
  have htold : ∀ x ∈ (s.cyclic m).parents, ¬(s.cyclic x).status.IsIdle ∧
      (journal s.host).starts x = 0 := fun x hx => by
    have ha := h.sound.awaits m x hx
    refine ⟨ha.awake, by_contra fun hx => ?_⟩
    have hstatus : (s.cyclic m).status = .evaluated := (ha.started hx).1
    rw [hwaits] at hstatus
    cases hstatus
  have hexcused : ∀ x, x ≠ m → (x ∈ ([] : List ModuleId) ↔ x ∈ [m]) := fun x hx =>
    iff_of_false List.not_mem_nil fun e => hx (List.mem_singleton.1 e)
  obtain ⟨hw, hdone⟩ := h.done hc hh hwaits hone hend List.not_mem_nil
    (fun _ _ => Iff.rfl) hdebt hexcused (List.mem_singleton_self m)
  rw [hdone.fields, Function.update_self]
  refine ⟨⟨hw, List.nodup_nil, fun x =>
    ⟨fun hx => (List.not_mem_nil hx).elim, fun hx => (List.not_mem_nil hx.1).elim⟩,
    fun x hx => ⟨?_, ?_⟩⟩, rfl⟩
  · rw [hdone.fields]
    by_cases ex : x = m
    · rw [ex, Function.update_self]
      exact id
    · rw [Function.update_of_ne ex]
      exact (htold x hx).1
  · rw [hdone.journal]
    exact (htold x hx).2

/-- All that wait for a module are told, and the recursion that tells them ends. -/
theorem Gathering.gathers (h : s.Gathering journal owner reserved o [] released
    (s.cyclic m).parents) :
    Gathers journal owner reserved o (s.cyclic m).parents [] [] s (s.readyAfter m) := by
  rw [← List.append_nil (s.cyclic m).parents] at h
  exact gatherReady_gathers (s.modules.size + 1) _ _ _ _ _ h (Nat.le_add_right _ _)

/-- The modules that are ready afterwards are about to be run. -/
theorem Gathering.readyAfter (h : s.Gathering journal owner reserved o [] released
    (s.cyclic m).parents) : ∃ released', (s.readyAfter m).2.Running journal owner reserved o
      ((s.readyAfter m).2.sortByTurn (s.readyAfter m).1) released' := by
  obtain ⟨released', hg⟩ := h.gathers.gathering
  exact ⟨released', hg.running⟩

/-- The body of a module has come to its end: the module is complete, all that wait for it are told,
and those that are ready have run. -/
theorem bodySucceeded_ends (hc : Conduct journal owner reserved hosts) (hh : host ∈ hosts)
    (h : s.Working journal owner reserved { o with excused := [m] } [] [] [] []) (hm : s.Begun m)
    (hend : Entry.ended m ∈ journal s.host) (hrun : bodySucceeded host m s = some ((), s')) :
    s'.Working journal owner reserved { o with excused := [] } [] [] [] [] := by
  rw [bodySucceeded, Run.view_bind, status_of_isCyclic hm.1] at hrun
  split at hrun
  · rename_i hs
    cases hrun
    exact h.excuse_evaluated hs
  rename_i hs
  rw [Run.update_bind, Run.make_bind, Run.view_bind] at hrun
  obtain ⟨released, hr⟩ := (h.gathering hc hh hend (h.waits_of_ended hm hend hs)).1.readyAfter
  exact runAll_ends hc hh hr hrun

end Machine

end ModuleGraph

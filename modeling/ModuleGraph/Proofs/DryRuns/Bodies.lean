import ModuleGraph.Proofs.DryRuns.Course

/-! # Bodies of a dry run

In the course of a dry run each request has an answer, and each body that starts comes to its end or
waits for a promise that is fulfilled already. One that waits comes to its end when it goes on. -/

namespace ModuleGraph.FileSystem

open Relation

variable {b : Desk} {s s' : Watched} {m n x : ModuleId} {request : String} {depth : ℕ}

/-! ## Requests -/

/-- What a specifier means is what it meant when the files were linked. -/
theorem Course.target?_eq (h : Course b s) (m : ModuleId) (request : String) :
    Desk.target? (Watched.desk s) m request = Desk.target? b m request := by
  have hlabel : ((Watched.desk s).module m).label = (b.module m).label := h.cast.label m
  have htree : (Watched.desk s).host.tree = b.host.tree := h.chronicle.tree
  have hcurrent : (Watched.desk s).host.current = b.host.current := h.chronicle.current
  have hloaded : (Watched.desk s).host.loaded = b.host.loaded := h.chronicle.loaded
  rw [Desk.target?, hlabel, htree, hcurrent, hloaded, Desk.target?]

/-- Each request is answered with the module that was linked for it. -/
theorem Course.answer (h : Course b s) (hb : Desk.Ready b) (depth : ℕ)
    (hr : request ∈ b.requested m) :
    ∃ n s', (watchedHost depth).resolve (.module m) request s = some (.ok n, s') ∧
      Passes b s s' ∧ s'.Has n := by
  obtain ⟨n, hn, -⟩ := (hb.furnished m (Machine.has_of_requested hr)).targets request hr
  have hhas : s.Has n := (h.cast.has n).2 (hb.stock.has_target hn)
  have ht : Watched.target? s m request = some n := by
    rw [Watched.target?, h.target?_eq, hn]
    exact Option.filter_eq_some_iff.2 ⟨rfl, decide_eq_true hhas⟩
  refine ⟨n, _, answerWatched_eq_some.2 ⟨n, ht, rfl, rfl⟩, ⟨⟨h.cast.of_modules rfl, ?_, ?_⟩,
    Nat.le_refl _, fun _ => id⟩, hhas⟩
  · exact h.chronicle.note _ _ rfl rfl rfl (List.append_nil _).symm hn
  · exact h.pledges.change rfl rfl rfl fun e he => List.mem_append_left _ he

/-! ## Pieces of bodies -/

def Desk.noted (s : Desk) (e : BodyEvent) : Desk :=
  s.setHost { s.host with events := s.host.events ++ [e] }

theorem executeDry_eq (depth : ℕ) (s : Desk) (m : ModuleId) : executeDry depth m s =
    if s.hasAwait m then some (.ok (.waiting s.nextPromise m),
      ((Desk.noted s (.started m)).newPromise (.fulfilled .undefined)).2)
    else finishDry depth m (Desk.noted s (.started m)) := by
  change (do
    if ← Act.view fun s => s.hasAwait m then
      let p ← Act.make fun s => s.newFulfilled .undefined
      pure (.waiting p m)
    else finishDry depth m : Loading (Execution ModuleId)) (Desk.noted s (.started m)) = _
  rw [Act.view_bind]
  have hawait : (Desk.noted s (.started m)).hasAwait m = s.hasAwait m := rfl
  rw [hawait]
  split <;> rfl

theorem finishDry_ok {s : Desk} (hdepth : 0 < depth) (hm : s.BindsOwn m) : ∃ s',
    finishDry depth m s = some (.ok .completed, s') ∧ s.Fills s' ∧
      ∀ x, s.BindsOwn x → s'.BindsOwn x := by
  obtain ⟨s', hrun, hfills, hown⟩ := fillDeclarations_ok hdepth hm
  exact ⟨s', throwing_bind.2 (.inl ⟨(), s', hrun, rfl⟩), hfills, hown⟩

/-- A piece of a body has run: events and entries were noted, and declarations were filled. -/
structure Ran (b : Desk) (s s' : Watched) : Prop where
  course : Course b s'
  load : s'.load = s.load
  fields : ∀ x, s'.cyclic x = s.cyclic x

theorem Course.ran (h : Course b s) {w : Workspace} {j : Journal} {d : Desk}
    (hfills : ((Watched.desk s).setHost w).Fills d)
    (hown : ∀ x, s.BindsOwn x → d.BindsOwn x) (hw : Chronicle b (w, j))
    (hj : ∀ e ∈ s.host.2, e ∈ j) : Ran b s (Desk.watched d j) where
  course := by
    refine ⟨h.cast.change hfills.size hfills.label hfills.cyclic? hown, ?_,
      h.pledges.change hfills.promises hfills.reactions hfills.jobs hj⟩
    have hhost : (Desk.watched d j).host = (w, j) := congrArg (·, j) hfills.host
    rw [hhost]
    exact hw
  load := by
    have hp : (Desk.watched d j).promises = s.promises := hfills.promises
    have hq : (Desk.watched d j).jobs = s.jobs := hfills.jobs
    rw [Machine.load, Machine.load, hp, hq]
  fields := hfills.cyclic

/-- A body has started: it has come to its end, or it waits for a promise that is fulfilled. -/
structure Begins (b : Desk) (s : Watched) (m : ModuleId) (e : Execution ModuleId) (s' : Watched) :
    Prop extends Ran b s s' where
  begun : begun s' = begun s + 1
  started : ∃ before, Entry.started m before ∈ s'.host.2
  completed : b.hasAwait m = false → e = .completed
  waiting : b.hasAwait m → ∃ p, e = .waiting p m ∧ s'.promise p = .fulfilled .undefined

theorem startedCount_append (events : List BodyEvent) (e : BodyEvent) :
    CommandLine.startedCount (events ++ [e]) = CommandLine.startedCount events +
      CommandLine.startedCount [e] := List.countP_append

theorem Course.execute (h : Course b s) (hdepth : 0 < depth) (hm : s.Has m) :
    ∃ e s', (watchedHost depth).execute m s = some (.ok e, s') ∧ Begins b s m e s' := by
  set w : Workspace :=
    { s.host.1 with events := s.host.1.events ++ [.started m] } with hw
  have hstart : Chronicle b (w, s.host.2 ++ [.started m s.outline]) :=
    h.chronicle.note _ _ rfl rfl rfl rfl ⟨h.cast.isCyclic, h.cast.requested⟩
  have hstarted : Entry.started m s.outline ∈ s.host.2 ++ [.started m s.outline] :=
    List.mem_append_right _ (List.mem_singleton_self _)
  have hbegun : CommandLine.startedCount w.events = begun s + 1 := startedCount_append _ _
  have hhost : (Watched.desk s).hasAwait m = b.hasAwait m := h.cast.hasAwait m
  have hrun : ∀ {e d}, executeDry depth m (Watched.desk s) = some (.ok e, d) →
      (watchedHost depth).execute m s = some (.ok e, Desk.watched d
        (s.host.2 ++ [.started m s.outline] ++ .closing m d.nextError (.ok e))) := fun {e d} hdry =>
    watchPiece_eq_some.2 ⟨e, d, rfl, hdry, rfl⟩
  have hmem : ∀ k : Journal, ∀ e ∈ s.host.2, e ∈ s.host.2 ++ [.started m s.outline] ++ k :=
    fun k e he => List.mem_append_left _ (List.mem_append_left _ he)
  cases hawait : b.hasAwait m with
  | true =>
    have hdry := executeDry_eq depth (Watched.desk s) m
    rw [hhost, hawait, if_pos rfl] at hdry
    refine ⟨_, _, hrun hdry, ⟨⟨⟨h.cast.of_modules rfl, ?_, ?_⟩, ?_, fun _ => rfl⟩, hbegun,
      ⟨_, List.mem_append_left _ hstarted⟩, fun hf => (nomatch hawait.symm.trans hf),
      fun _ => ⟨_, rfl, ?_⟩⟩⟩
    · exact hstart.note _ _ rfl rfl rfl (List.append_nil _).symm trivial
    · exact (h.pledges.newPromise (.fulfilled .undefined) rfl fun x hx =>
        (Option.some.inj hx).symm).change rfl rfl rfl (hmem _)
    · have hstate : (PromiseState.fulfilled .undefined).reactions = [] := rfl
      exact Machine.load_newPromise (s := s) hstate
    · exact Machine.promise_newPromise_self (Desk.noted (Watched.desk s) (.started m)) _
  | false =>
    obtain ⟨d, hfinish, hfills, hown⟩ := finishDry_ok (s := (Watched.desk s).setHost w) hdepth
      (h.cast.own m hm)
    have hdry := executeDry_eq depth (Watched.desk s) m
    rw [hhost, hawait, if_neg Bool.false_ne_true] at hdry
    have hran := h.ran hfills hown (hstart.note (.ended m) w rfl rfl rfl (by
      rw [eventOf, hawait]
      exact (List.append_nil _).symm) ⟨_, hstarted⟩) (hmem _)
    refine ⟨_, _, hrun (hdry.trans hfinish), hran, ?_, ⟨_, List.mem_append_left _ hstarted⟩,
      fun _ => rfl, fun ht => nomatch hawait.symm.trans ht⟩
    have hevents : (Desk.watched d (s.host.2 ++ [.started m s.outline] ++ [.ended m])).host.1 = w :=
      hfills.host
    rw [begun]
    refine Eq.trans ?_ hbegun
    exact congrArg (fun w => CommandLine.startedCount w.events) hevents

theorem Course.resume (h : Course b s) (hdepth : 0 < depth)
    (hhandles : Handles b s.host.2 (.resumeBody x c m)) (v : Value) :
    ∃ s', (watchedHost depth).resume m (.fulfilled v) s = some (.ok .completed, s') ∧
      Passes b s s' := by
  obtain ⟨hm, hawait, hstarted⟩ := hhandles
  set w : Workspace :=
    { s.host.1 with events := s.host.1.events ++ [.resumed m] } with hw
  obtain ⟨d, hfinish, hfills, hown⟩ := finishDry_ok (s := (Watched.desk s).setHost w) hdepth
    (h.cast.own m ((h.cast.has m).2 hm))
  have hdry : resumeDry depth m (.fulfilled v) (Watched.desk s) = some (.ok .completed, d) :=
    hfinish
  have hran := h.ran hfills hown (h.chronicle.note (.ended m) w rfl rfl rfl (by
    rw [eventOf, hawait]
    rfl) hstarted) fun e he => List.mem_append_left _ he
  refine ⟨_, watchPiece_eq_some.2 ⟨_, d, rfl, hdry, rfl⟩, hran.course, ?_, fun x hx => ?_⟩
  · have hevents : (Desk.watched d (s.host.2 ++ [.ended m])).host.1 = w := hfills.host
    have hbegun : begun (Desk.watched d (s.host.2 ++ [.ended m])) = begun s := by
      rw [begun, hevents]
      exact startedCount_append _ _
    have hload : (Desk.watched d (s.host.2 ++ [.ended m])).load = s.load := hran.load
    exact Nat.le_of_eq (congrArg₂ (fun l n => l + 2 * n) hload hbegun.symm)
  · have hfields : (Desk.watched d (s.host.2 ++ [.ended m])).cyclic x = s.cyclic x := hran.fields x
    rw [← hfields]
    exact hx

/-! ## Bodies -/

theorem Cast.runBody (h : Cast b s) (hm : s.Has m) :
    runBody (watchedHost depth) m s = (watchedHost depth).execute m s := by
  obtain ⟨record, env, c, hk⟩ := h.kind hm
  rw [ModuleGraph.runBody, Act.view_bind, hk]

theorem Course.runSyncBody (h : Course b s) (hdepth : 0 < depth) (hm : s.Has m)
    (hawait : b.hasAwait m = false) :
    ∃ s', runSyncBody (watchedHost depth) m s = some (.ok (), s') ∧ Passes b s s' := by
  obtain ⟨e, s', hrun, hbegins⟩ := h.execute hdepth hm
  obtain rfl := hbegins.completed hawait
  refine ⟨s', throwing_bind.2 (.inl ⟨.completed, s', (h.cast.runBody hm).trans hrun, rfl⟩),
    hbegins.course, ?_, fun x hx => by rwa [hbegins.fields] at hx⟩
  have := hbegins.load
  have := hbegins.begun
  omega

/-- A body with top-level await attaches two reactions: one for its end, and one for the rest of it.
The second is queued at once. -/
theorem Course.startAsyncBody (h : Course b s) (hdepth : 0 < depth) (hm : s.Has m) :
    ∃ s', startAsyncBody (watchedHost depth) m s = some ((), s') ∧ Passes b s s' := by
  have hnew : Passes b s s.newCapability.2 := h.newPromise (.pending [] false) rfl nofun
  obtain ⟨hcourse₂, hload₂, hmodules₂, hhost₂⟩ := hnew.course.attach depth
    s.newCapability.1.promise ⟨.bodyEnded m, none⟩ rfl trivial fun _ => nofun
  set s₂ := s.newCapability.2.attach (watchedHost depth).track s.newCapability.1.promise
    ⟨.bodyEnded m, none⟩ with hs₂
  have hm₂ : s₂.Has m := (hcourse₂.cast.has m).2 ((h.cast.has m).1 hm)
  obtain ⟨e, s₃, hrun, hbegins⟩ := hcourse₂.execute hdepth hm₂
  refine ⟨s₃.continueBody (watchedHost depth) m s.newCapability.1 (.ok e), ?_, ?_⟩
  · rw [ModuleGraph.startAsyncBody, Run.make_bind, Run.update_bind]
    exact Run.bind_eq_some.2 ⟨.ok e, s₃, (hcourse₂.cast.runBody hm₂).trans hrun, rfl⟩
  have hbegun₂ : begun s₂ = begun s := by rw [begun, hhost₂]; rfl
  have hload₁ : s.newCapability.2.load = s.load := Machine.load_newPromise rfl
  have hload₃ := hbegins.load
  have hbegun₃ := hbegins.begun
  have hran : Passes b s s₃ := by
    refine ⟨hbegins.course, by omega, fun x hx => ?_⟩
    rw [hbegins.fields] at hx
    exact hnew.awake x (Course.awake_of_modules hmodules₂ x hx)
  cases hawait : b.hasAwait m with
  | false =>
    obtain rfl := hbegins.completed hawait
    exact hran.trans (hbegins.course.resolve depth _)
  | true =>
    obtain ⟨p, rfl, hp⟩ := hbegins.waiting hawait
    obtain ⟨hcourse₄, hload₄, hmodules₄, hhost₄⟩ := hbegins.course.attach depth p
      ⟨.resumeBody m s.newCapability.1 m, none⟩ rfl
      ⟨(h.cast.has m).1 hm, hawait, hbegins.started⟩ fun hnone => by rw [hp] at hnone; cases hnone
    refine ⟨hcourse₄, ?_, fun x hx => hran.awake x (Course.awake_of_modules hmodules₄ x hx)⟩
    have hbegun₄ : begun (s₃.continueBody (watchedHost depth) m s.newCapability.1
        (.ok (.waiting p m))) = begun s₃ :=
      congrArg (fun w : Workspace × Journal => CommandLine.startedCount w.1.events) hhost₄
    have hload₄' : (s₃.continueBody (watchedHost depth) m s.newCapability.1
        (.ok (.waiting p m))).load ≤ s₃.load + 1 := hload₄
    omega

end ModuleGraph.FileSystem

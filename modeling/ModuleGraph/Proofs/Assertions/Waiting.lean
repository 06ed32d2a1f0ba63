import ModuleGraph.Proofs.Assertions.Visiting
import ModuleGraph.Proofs.Runs.Ready

/-! # The assertions about modules that wait

When the body of a module that waited has come to its end, the module is still waiting, or it has
failed already. Each module that is told has a turn and waits for something; a module that fails has
not failed before. -/

namespace ModuleGraph

variable {σ κ : Type}

namespace Checked

variable (host : Host σ κ)

/-! ## Failing -/

def failWaiting : Nat → ModuleId → Value → Trial σ κ Unit
  | 0, _, _ => pure ()
  | fuel + 1, m, e => do
    let c ← Trial.fields m
    if c.status = .evaluated then Trial.demand .hasFailed fun _ => c.error ≠ none
    else
      Trial.demand .isWaiting fun _ => c.status = .evaluatingAsync
      Trial.demand .notFailed fun _ => c.error = none
      Trial.change m fun c => { c.fail e with order := .done }
      c.parents.forM fun parent => failWaiting fuel parent e
      match c.capability with
      | some capability => Trial.update fun s => s.reject host.track capability e
      | none => pure ()

def bodyFailed (m : ModuleId) (e : Value) : Trial σ κ Unit := do
  let fuel ← Trial.view fun s => s.modules.size + 1
  failWaiting host fuel m e

/-! ## Gathering -/

def gatherOne (gather : ModuleId → List ModuleId → Trial σ κ (List ModuleId))
    (ready : List ModuleId) (m : ModuleId) : Trial σ κ (List ModuleId) := do
  if ready.contains m then pure ready
  else
    let c ← Trial.fields m
    let root ← Trial.fields (c.root.getD m)
    if root.error.isSome then pure ready
    else
      Trial.demand .hasTurn fun _ => c.order.isTurn
      Trial.demand .countsWaits fun _ => c.pending ≠ none
      Trial.demand .waitsForMore fun _ => c.pending ≠ some 0
      Trial.change m fun c => { c with pending := c.pending.map (· - 1) }
      if c.pending = some 1 then
        if c.hasAwait then pure (ready ++ [m]) else gather m (ready ++ [m])
      else pure ready

def gatherReady : Nat → ModuleId → List ModuleId → Trial σ κ (List ModuleId)
  | 0, _, ready => pure ready
  | fuel + 1, m, ready => do
    let c ← Trial.fields m
    c.parents.foldlM (gatherOne (gatherReady fuel)) ready

def readyAfter (m : ModuleId) : Trial σ κ (List ModuleId) := do
  let fuel ← Trial.view fun s => s.modules.size + 1
  let ready ← gatherReady fuel m []
  ready.forM fun x => Trial.demand .isRecord fun s => s.isCyclic x
  Trial.view fun s => s.sortByTurn ready

/-! ## Running what is ready -/

def complete (m : ModuleId) : Trial σ κ Unit := do
  Trial.change m fun c => { c with order := .done, status := .evaluated }
  let c ← Trial.fields m
  match c.capability with
  | some c => Trial.update fun s => s.resolve host.track c .undefined
  | none => pure ()

def runReady (m : ModuleId) : Trial σ κ Unit := do
  let c ← Trial.fields m
  if c.status = .evaluated then Trial.demand .hasFailed fun _ => c.error ≠ none
  else if c.hasAwait then startAsyncBody host m
  else
    match ← (runSyncBody host m).run with
    | .ok () => complete host m
    | .error e => bodyFailed host m e

def bodySucceeded (m : ModuleId) : Trial σ κ Unit := do
  let c ← Trial.fields m
  if c.status = .evaluated then Trial.demand .hasFailed fun _ => c.error ≠ none
  else
    Trial.demand .isWaiting fun _ => c.status = .evaluatingAsync
    complete host m
    let ready ← readyAfter m
    ready.forM (runReady host)

end Checked

namespace Machine

variable {journal : σ → Journal} {owner : κ → ModuleId} {reserved : Set PromiseId}
    {hosts : Set (Host σ κ)}
variable {host : Host σ κ} {J : Machine σ κ → Prop} {s s' : Machine σ κ} {o : Focus}
variable {m x : ModuleId} {e : Value} {ready released debt doom rest : List ModuleId} {fuel : Nat}

/-! ## Failing -/

/-- All failures that go no deeper go as if nothing was asserted. -/
def FailuresSure (journal : σ → Journal) (owner : κ → ModuleId) (reserved : Set PromiseId)
    (host : Host σ κ) (J : Machine σ κ → Prop) (fuel : Nat) : Prop :=
  ∀ (o : Focus) (ready released debt doom : List ModuleId) (m : ModuleId) (e : Value)
    (s : Machine σ κ), s.Working journal owner reserved o ready released debt doom →
    s.Failing journal e m → s.unfinished < fuel →
      Sure J (Checked.failWaiting host fuel m e) (Run.update fun s => s.failWaiting host fuel m e) s

/-- A module that waits, or that has failed, takes part in cycles. -/
theorem Failing.isCyclic (h : s.Working journal owner reserved o ready released debt doom)
    (hm : s.Failing journal e m) : s.isCyclic m := by
  refine isCyclic_of_awake ?_
  obtain hs | he := hm.waits
  · exact Status.awake_of_evaluatingAsync hs
  · exact Status.awake_of_evaluated ((h.sound.shaped m).evaluated_of_failed he)

theorem failWaiting_sure (hc : Conduct journal owner reserved hosts) (hh : host ∈ hosts)
    (fuel : Nat) : FailuresSure journal owner reserved host J fuel := by
  induction fuel with
  | zero => exact fun _ _ _ _ _ _ _ _ _ _ hfuel => absurd hfuel (Nat.not_lt_zero _)
  | succ fuel ih =>
    intro o ready released debt doom m e s h hm hfuel
    have hcyc := hm.isCyclic h
    refine .fields (fun _ => hcyc) ?_
    by_cases hs : (s.cyclic m).status = .evaluated
    · rw [if_pos hs]
      refine .of_eq (q := pure ()) ?_ (.demand_last fun _ => ?_)
      · rw [Run.update_apply, failWaiting, if_pos hs]
        rfl
      · exact hm.waits.resolve_left (by rw [hs]; rintro ⟨⟩)
    have hwaits : (s.cyclic m).status = .evaluatingAsync :=
      hm.waits.resolve_right fun he => hs ((h.sound.shaped m).evaluated_of_failed he)
    rw [if_neg hs]
    refine .demand (fun _ => hwaits) (.demand (fun _ => ((h.sound.shaped m).waiting hwaits).1) ?_)
    obtain ⟨hw₁, hf₁, hself⟩ := h.fail hm hwaits
    have hlt := hf₁.unfinished_lt (has_of_awake (Status.awake_of_evaluatingAsync hwaits)) hs
      (by rw [hself]; rfl)
    refine .step (q := Run.update fun s₁ => (s.cyclic m).capability.elim
      ((s.cyclic m).parents.foldl (fun s x => s.failWaiting host fuel x e) s₁) fun c =>
        ((s.cyclic m).parents.foldl (fun s x => s.failWaiting host fuel x e) s₁).reject
          host.track c e)
      (.change fun _ => hcyc) ?_ ?_
    · rw [Run.update_apply, failWaiting, if_neg hs]
      cases (s.cyclic m).capability <;> rfl
    -- The parents fail one after the other.
    refine .step (q := Run.update fun s₂ => (s.cyclic m).capability.elim s₂ fun c =>
      s₂.reject host.track c e) (Sure.foldl (g := fun s x => s.failWaiting host fuel x e)
        (I := fun rest s₁ => s₁.Working journal owner reserved
          (o.tell m (s.cyclic m).capability) ready released debt ((s.cyclic m).parents ++ doom) ∧
          (∀ x ∈ rest, s₁.Failing journal e x) ∧ s₁.unfinished < fuel)
        (fun x rest s₁ h₁ => ?_) (fun x rest s₁ h₁ => ?_)
        (s.cyclic m).parents ⟨hw₁, fun x hx => ?_, ?_⟩) rfl ?_
    · exact ih _ _ _ _ _ x e s₁ h₁.1 (h₁.2.1 x (List.mem_cons_self ..)) h₁.2.2
    · obtain ⟨hw, hrest, hfuel⟩ := h₁
      have hx := failWaiting_ends hc hh fuel _ _ _ _ _ x e s₁ hw
        (hrest x (List.mem_cons_self ..)) hfuel
      exact ⟨hx.toWorking, fun y hy => (hrest y (List.mem_cons_of_mem _ hy)).fails hx.toFails,
        hx.toFails.unfinished_le.trans_lt hfuel⟩
    · exact (h.failing_parent hm hwaits hx).fails hf₁
    · omega
    · cases (s.cyclic m).capability with
      | some c => exact .ofRun _
      | none => exact .pure _

/-- A module that has failed takes all that wait for it along. -/
theorem bodyFailed_sure (hc : Conduct journal owner reserved hosts) (hh : host ∈ hosts)
    (h : s.Working journal owner reserved o ready released debt doom) (hm : s.Failing journal e m) :
    Sure J (Checked.bodyFailed host m e) (Run.update fun s => s.bodyFailed host m e) s :=
  failWaiting_sure hc hh _ _ _ _ _ _ _ _ _ h hm (Nat.lt_succ_of_le s.unfinished_le_size)

/-! ## Gathering -/

def GatheringsSure (journal : σ → Journal) (owner : κ → ModuleId) (reserved : Set PromiseId)
    (o : Focus) (J : Machine σ κ → Prop) (fuel : Nat) : Prop :=
  ∀ (ready released rest : List ModuleId) (m : ModuleId) (s : Machine σ κ),
    s.Gathering journal owner reserved o ready released ((s.cyclic m).parents ++ rest) →
    s.isCyclic m → s.modules.size + 1 ≤ fuel + ready.length →
      Sure J (Checked.gatherReady fuel m ready) (Run.make fun s => gatherReady fuel s m ready) s

/-- The root of a module whose evaluation has begun takes part in cycles. -/
theorem Working.isCyclic_root (h : s.Working journal owner reserved o ready released debt doom)
    (hx : ¬(s.cyclic x).status.IsIdle) : s.isCyclic ((s.cyclic x).root.getD x) := by
  cases hr : (s.cyclic x).root with
  | none => exact isCyclic_of_awake hx
  | some q =>
    refine isCyclic_of_awake ?_
    obtain e | e := (h.sound.member x q hr).finished
    · exact Status.awake_of_evaluatingAsync e
    · exact Status.awake_of_evaluated e

theorem gatherOne_sure (ih : GatheringsSure (σ := σ) (κ := κ) journal owner reserved o J fuel)
    (h : s.Gathering journal owner reserved o ready released (x :: rest))
    (hfuel : s.modules.size + 1 ≤ fuel + 1 + ready.length) :
    Sure J (Checked.gatherOne (Checked.gatherReady fuel) ready x)
      (Run.make fun s => gatherOne (gatherReady fuel) s ready x) s := by
  rw [Checked.gatherOne]
  by_cases hready : ready.contains x
  · rw [if_pos hready]
    refine .of_eq (q := pure ready) ?_ (.pure _)
    rw [Run.make_apply, gatherOne, hready]
    rfl
  rw [if_neg hready]
  have hi := (h.told x (List.mem_cons_self ..)).1
  refine .fields (fun _ => isCyclic_of_awake hi) (.fields (fun _ => h.isCyclic_root hi) ?_)
  by_cases hroot : (s.cyclic ((s.cyclic x).root.getD x)).error.isSome
  · rw [if_pos hroot]
    refine .of_eq (q := pure ready) ?_ (.pure _)
    rw [Run.make_apply, gatherOne, if_pos (by rw [rootFailed, cycleRoot_eq, hroot, Bool.or_true])]
    rfl
  rw [if_neg hroot]
  have hx := h.waits List.mem_cons_self (by rwa [rootFailed, cycleRoot_eq])
  obtain ⟨n, hn⟩ := h.pending hx
  refine .demand (fun _ => ((h.sound.shaped x).waiting hx).2.2) (.demand (fun _ => ?_)
    (.demand (fun _ => ?_) ?_))
  · rw [hn]
    rintro ⟨⟩
  · rw [hn]
    rintro ⟨⟩
  obtain ⟨released', hrel⟩ := h.release hx hn
  have hskip : (ready.contains x || s.rootFailed x) = false := by
    rw [rootFailed, cycleRoot_eq, Bool.eq_false_of_not_eq_true hready,
      Bool.eq_false_of_not_eq_true hroot]
    rfl
  have hawait : ((s.release x).cyclic x).hasAwait = (s.cyclic x).hasAwait :=
    Gathering.field_release hx hn (·.hasAwait) (fun _ _ => rfl) x
  refine .step (g := fun s => s.release x) (q := if n = 0 then
      if (s.cyclic x).hasAwait then pure (ready ++ [x])
      else Run.make fun s => gatherReady fuel s x (ready ++ [x])
    else pure ready) (.change fun _ => isCyclic_of_awake hi) ?_ ?_
  · rw [Run.make_apply, gatherOne, if_neg (by rw [hskip]; exact Bool.false_ne_true), hn]
    dsimp only
    rw [hawait]
    split
    · split <;> rfl
    · rfl
  by_cases h0 : n = 0
  · subst h0
    rw [if_pos hn, if_pos rfl]
    split
    · exact .pure _
    · rename_i ha
      rw [if_pos rfl, if_pos ⟨rfl, hawait.trans (Bool.eq_false_of_not_eq_true ha)⟩] at hrel
      have hsize : (s.release x).modules.size = s.modules.size := size_updateModule ..
      have hgrown : (ready ++ [x]).length = ready.length + 1 := List.length_append
      exact ih _ _ _ _ _ hrel ((isCyclic_updateCyclic s x x _).trans (isCyclic_of_awake hi))
        (by omega)
  · rw [if_neg (by rw [hn]; simpa using h0), if_neg h0]
    exact .pure _

theorem gatherReady_sure (fuel : Nat) :
    GatheringsSure (σ := σ) (κ := κ) journal owner reserved o J fuel := by
  induction fuel with
  | zero =>
    intro ready released rest m s h _ hfuel
    have := h.length_le
    omega
  | succ fuel ih =>
    intro ready released rest m s h hm hfuel
    refine .fields (fun _ => hm) ?_
    refine .of_eq (q := Run.make fun s₁ => (s.cyclic m).parents.foldl
      (fun r x => gatherOne (gatherReady fuel) r.2 r.1 x) (ready, s₁)) rfl ?_
    refine Sure.foldlM (g := fun r x => gatherOne (gatherReady fuel) r.2 r.1 x)
      (I := fun xs ready s => (∃ released, s.Gathering journal owner reserved o ready released
        (xs ++ rest)) ∧ s.modules.size + 1 ≤ fuel + 1 + ready.length)
      (fun x xs ready s h => ?_) (fun x xs ready s h => ?_) _ _ _ ⟨⟨released, h⟩, hfuel⟩
    · obtain ⟨⟨released, h⟩, hfuel⟩ := h
      exact gatherOne_sure ih h hfuel
    · obtain ⟨⟨released, h⟩, hfuel⟩ := h
      have hx := gatherOne_gathers (gatherReady_gathers fuel) h hfuel
      refine ⟨hx.gathering, ?_⟩
      have hsize := hx.size
      have hgrown := hx.grown
      dsimp only at hsize hgrown ⊢
      omega

/-! ## Running what is ready -/

theorem Gathering.isCyclic_ready
    (h : s.Gathering journal owner reserved o ready released debt) (hx : x ∈ ready) :
    s.isCyclic x :=
  isCyclic_of_awake (h.awake_ready hx)

theorem readyAfter_sure (h : s.Gathering journal owner reserved o [] released (s.cyclic m).parents)
    (hm : s.isCyclic m) :
    Sure J (Checked.readyAfter m) (do
      let ready ← Run.make fun s => s.readyAfter m
      Run.view fun s => s.sortByTurn ready) s := by
  rw [← List.append_nil (s.cyclic m).parents] at h
  have hfuel : s.modules.size + 1 ≤ s.modules.size + 1 + ([] : List ModuleId).length :=
    Nat.le_add_right _ _
  refine .of_eq (q := do
    let fuel ← Run.view fun s => s.modules.size + 1
    let ready ← Run.make fun s => gatherReady fuel s m []
    Run.view fun s => s.sortByTurn ready) rfl (.bind (.ofRun _) fun fuel s₀ h₀ => ?_)
  cases h₀
  refine .bind (gatherReady_sure _ _ _ _ _ _ h hm hfuel) fun ready s₁ hs₁ => ?_
  obtain ⟨released', h₁⟩ := (gatherReady_gathers _ _ _ _ _ _ h hfuel).gathering
  rw [show gatherReady _ s m [] = (ready, s₁) from Option.some.inj hs₁] at h₁
  exact .demand_all (fun x hx => h₁.isCyclic_ready hx) (.ofRun _)

theorem complete_sure (hm : s.isCyclic m) :
    Sure J (Checked.complete host m) (Run.update fun s => (s.complete m).answer host m) s := by
  refine .step (g := fun s => s.complete m) (q := Run.update fun s => s.answer host m)
    (.change fun _ => hm) rfl (.fields (fun _ => (isCyclic_updateCyclic s m m _).trans hm) ?_)
  cases hcap : ((s.complete m).cyclic m).capability with
  | some c =>
    refine .of_eq (q := Run.update fun s => s.resolve host.track c .undefined) ?_ (.ofRun _)
    rw [Run.update_apply, answer, hcap]
    rfl
  | none =>
    refine .of_eq (q := pure ()) ?_ (.pure _)
    rw [Run.update_apply, answer, hcap]
    rfl

theorem runReady_sure (hc : Conduct journal owner reserved hosts) (hh : host ∈ hosts)
    (h : s.Running journal owner reserved o (m :: rest) released) :
    Sure J (Checked.runReady host m) (runReady host m) s := by
  have hcyc := h.isCyclic_ready (List.mem_cons_self ..)
  refine .of_eq (Run.view_bind _ _) (.fields (fun _ => hcyc) ?_)
  by_cases hs : (s.cyclic m).status = .evaluated
  · rw [if_pos hs, if_pos hs]
    refine .demand_last fun _ he => ?_
    have hwaits := (h.sound.ready m (List.mem_cons_self ..) he).1
    rw [show ((s.graph journal _).fields m).status = .evaluated from hs] at hwaits
    cases hwaits
  rw [if_neg hs, if_neg hs]
  by_cases ha : (s.cyclic m).hasAwait
  · rw [if_pos ha, if_pos ha]
    exact startAsyncBody_sure hcyc (.inr (h.waits hs).1) ha
  rw [if_neg ha, if_neg ha]
  refine .bind (runSyncBody_sure hcyc) fun result s₁ hbody => ?_
  have ha := Bool.eq_false_of_not_eq_true ha
  obtain ⟨hwaits, -, -, -⟩ := h.waits hs
  obtain ⟨hw, hran, -, hthrew⟩ := h.ranSync hc hh hs ha hbody
  have hs₁ : (s₁.cyclic m).status = .evaluatingAsync :=
    (h.keeps hran (List.mem_cons_self ..)).2.2.trans hwaits
  cases result with
  | ok u => exact complete_sure (isCyclic_of_awake (Status.awake_of_evaluatingAsync hs₁))
  | error e => exact bodyFailed_sure hc hh hw ⟨(hthrew e rfl).blames, .inl hs₁⟩

theorem runAll_sure (hc : Conduct journal owner reserved hosts) (hh : host ∈ hosts)
    (h : s.Running journal owner reserved o ready released) :
    Sure J (ready.forM (Checked.runReady host)) (ready.forM (runReady host)) s :=
  Sure.forM (I := fun rest s => ∃ released, s.Running journal owner reserved o rest released)
    (fun _ _ _ ⟨_, h⟩ => runReady_sure hc hh h)
    (fun _ _ _ _ ⟨_, h⟩ hrun => ⟨_, runReady_ends hc hh h hrun⟩) _ _ ⟨released, h⟩

/-! ## The end of a body that was waited for -/

/-- A module that is evaluated before its end is told has failed. -/
theorem Working.failed_of_evaluated {excused : List ModuleId}
    (h : s.Working journal owner reserved o ready released debt doom) (hm : s.MayTell excused m)
    (hs : (s.cyclic m).status = .evaluated) : (s.cyclic m).error ≠ none := by
  intro he
  have hturn : ¬(s.cyclic m).order.isTurn := ((h.sound.shaped m).complete hs he).2.1
  cases ho : (s.cyclic m).order with
  | unset => exact hm.begun.2.1 ho
  | turn k => exact hturn (by rw [ho]; rfl)
  | done => exact hm.failed ho he

theorem bodySucceeded_sure (hc : Conduct journal owner reserved hosts) (hh : host ∈ hosts)
    {excused : List ModuleId}
    (h : s.Working journal owner reserved { o with excused := [m] } [] [] [] [])
    (hm : s.MayTell excused m) (hend : Entry.ended m ∈ journal s.host) :
    Sure J (Checked.bodySucceeded host m) (bodySucceeded host m) s := by
  have hcyc := hm.begun.1
  refine .of_eq (Run.view_bind _ _) (.fields (fun _ => hcyc) ?_)
  rw [status_of_isCyclic hcyc]
  by_cases hs : (s.cyclic m).status = .evaluated
  · rw [if_pos hs, if_pos hs]
    exact .demand_last fun _ => h.failed_of_evaluated hm hs
  rw [if_neg hs, if_neg hs]
  have hwaits := h.waits_of_ended hm.begun hend hs
  refine .demand (fun _ => hwaits) (.bind (complete_sure hcyc) fun _ s₁ h₁ => ?_)
  cases h₁
  obtain ⟨hg, hs₁⟩ := h.gathering hc hh hend hwaits
  obtain ⟨released, hr⟩ := hg.readyAfter
  refine .of_eq (q := (do
    let ready ← Run.make fun s => s.readyAfter m
    Run.view fun s => s.sortByTurn ready) >>= fun ready => ready.forM (runReady host)) rfl
    (.bind (readyAfter_sure hg (isCyclic_of_awake (Status.awake_of_evaluated hs₁)))
      fun ready s₂ h₂ => ?_)
  cases h₂
  exact runAll_sure hc hh hr

end Machine

end ModuleGraph

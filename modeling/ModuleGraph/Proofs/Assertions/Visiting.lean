import ModuleGraph.Proofs.Assertions.Trial
import ModuleGraph.Proofs.Runs.Evaluate

/-! # The assertions of evaluation

An evaluation asserts that what it opens is linked, that the modules on its stack are those that are
being evaluated, and that a cycle it comes back to was finished. When it ends, nothing is left on
the stack, or what is left fails for the first time. -/

namespace ModuleGraph

variable {σ κ : Type}

namespace Checked

variable (host : Host σ κ)

/-! ## Bodies -/

def runSyncBody (m : ModuleId) : TrialAct σ κ Unit := do
  TrialAct.ofTrial (Trial.demand .isRecord fun s => s.isCyclic m)
  TrialAct.ofAct (ModuleGraph.runSyncBody host m)

def startAsyncBody (m : ModuleId) : Trial σ κ Unit := do
  let x ← Trial.fields m
  Trial.demand .isUnderway fun _ => x.status = .evaluating ∨ x.status = .evaluatingAsync
  Trial.demand .mayWait fun _ => x.hasAwait
  let c ← Trial.ofRun (Run.make Machine.newCapability)
  Trial.update fun s => s.attach host.track c.promise ⟨.bodyEnded m, none⟩
  Trial.demand .isRecord fun s => s.isCyclic m
  let execution ← Trial.ofRun (runBody host m).outcome
  Trial.update fun s => s.continueBody host m c execution

/-! ## Visits -/

def requireLeaf (m : ModuleId) : TrialAct σ κ Unit := do
  TrialAct.ofTrial (Trial.demand .isLeaf fun s => s.isCyclic m = false)
  let p ← TrialAct.ofTrial (Trial.ofRun (evaluateLeaf host m))
  TrialAct.ofTrial (Trial.demand .leafSettled fun s => (s.promise p).isPending = false)
  match ← TrialAct.ofTrial (Trial.view fun s => s.promise p) with
  | .rejected e _ =>
    TrialAct.ofTrial (Trial.update fun s => s.markHandled host.track p)
    throw e
  | .pending .. | .fulfilled _ => pure ()

def openEvaluation (m : ModuleId) : TrialVisit Value σ κ Unit := do
  TrialVisit.demand .isLinked fun _ s => s.status m = .linked
  let t ← get
  TrialVisit.ofTrial <| Trial.change m fun c =>
    { c with
      status := .evaluating, visit := some t.visits, ancestor := some t.visits, pending := some 0 }
  set { t with stack := m :: t.stack, visits := t.visits + 1 : Traversal }

def await (m required : ModuleId) : Trial σ κ Unit := do
  let c ← Trial.fields required
  if c.order.isTurn then
    Trial.change m fun c => { c with pending := c.pending.map (· + 1) }
    Trial.change required fun c => { c with parents := c.parents ++ [m] }

def afterRequest (m required : ModuleId) : TrialVisit Value σ κ Unit := do
  match ← TrialVisit.view fun s => s.cyclic? required with
  | none => pure ()
  | some c =>
    TrialVisit.demand .openOnStack fun t _ => c.status = .evaluating ↔ required ∈ t.stack
    if c.status = .evaluating then
      TrialVisit.ofTrial do
        Trial.change m (·.reach c.ancestor)
        await m required
    else
      let root ← TrialVisit.view fun s => s.cycleRoot required
      let r ← TrialVisit.ofTrial (Trial.fields root)
      TrialVisit.demand .rootFinished fun _ _ =>
        r.status = .evaluatingAsync ∨ r.status = .evaluated
      match r.error with
      | some e => throw e
      | none => TrialVisit.ofTrial (await m root)

def runOrWait (m : ModuleId) : TrialVisit Value σ κ Unit := do
  let c ← TrialVisit.ofTrial (Trial.fields m)
  let pending := c.pending.getD 0
  if 0 < pending || c.hasAwait then
    TrialVisit.demand .noTurn fun _ _ => c.order = .unset
    TrialVisit.ofTrial (Trial.update fun s => s.takeTurn m)
    if pending = 0 then TrialVisit.ofTrial (startAsyncBody host m)
  else TrialVisit.ofTrialAct (runSyncBody host m)

def closeEvaluation (m : ModuleId) : TrialVisit Value σ κ Unit := do
  let c ← TrialVisit.ofTrial (Trial.fields m)
  TrialVisit.demand .reachesBack fun _ _ => c.reachesBack
  if c.isRoot then
    TrialVisit.demand .rootOnStack fun t _ => m ∈ t.stack
    let (cycle, t) := (← get).close m
    TrialVisit.ofTrial (cycle.forM fun x => Trial.change x (Cyclic.close m))
    set t

def requestEvaluation (visit : ModuleId → TrialVisit Value σ κ Unit) (m : ModuleId)
    (request : String) : TrialVisit Value σ κ Unit := do
  let required ← TrialVisit.ofVisit (EvalVisit.ofAct (host.resolve (.module m) request))
  visit required
  afterRequest m required

def visitEvaluation : Nat → ModuleId → TrialVisit Value σ κ Unit
  | 0, _ => TrialVisit.ofVisit (EvalVisit.ofRun .exhausted)
  | depth + 1, m => do
    match ← TrialVisit.view fun s => s.cyclic? m with
    | none => TrialVisit.ofTrialAct (requireLeaf host m)
    | some c =>
      match c.status with
      | .evaluatingAsync | .evaluated =>
        match c.error with
        | some e => throw e
        | none => pure ()
      | .evaluating => pure ()
      | .unlinked | .linking | .linked => do
        openEvaluation m
        c.requested.forM (requestEvaluation host (visitEvaluation depth) m)
        runOrWait host m
        closeEvaluation m

/-! ## Whole evaluations -/

def abandon (e : Value) (m : ModuleId) : Trial σ κ Unit := do
  let c ← Trial.fields m
  Trial.demand .isEvaluating fun _ => c.status = .evaluating
  Trial.demand .notFailed fun _ => c.error = none
  Trial.change m (·.fail e)

def finishEvaluation (m : ModuleId) (c : Capability) (result : Except Value Unit)
    (stack : List ModuleId) : Trial σ κ Unit :=
  match result with
  | .error e => do
    stack.forM (abandon e)
    Trial.demand .isEvaluated fun s => s.status m = .evaluated
    Trial.update fun s => s.reject host.track c e
  | .ok () => do
    Trial.update fun s => if s.status m = .evaluated then s.resolve host.track c .undefined else s
    Trial.demand .stackEmpty fun _ => stack = []

def startEvaluation (m : ModuleId) : Trial σ κ PromiseId := do
  let c ← Trial.ofRun (Run.make Machine.newCapability)
  Trial.change m fun x => { x with capability := some c }
  let (result, t) ← (visitEvaluation host host.depth m).run.run ⟨[], 0⟩
  finishEvaluation host m c result t.stack
  pure c.promise

def evaluateCyclic (m : ModuleId) : Trial σ κ PromiseId := do
  let status ← Trial.view fun s => s.status m
  match refusal? status with
  | some message => do
    let e ← Trial.ofRun (Run.make fun s => s.newError .typeError message)
    Trial.ofRun (Run.make fun s => s.newRejected host.track e)
  | none => do
    let m ←
      if status = .linked then pure m
      else do
        let _ ← Trial.fields m
        Trial.view fun s => s.cycleRoot m
    let c ← Trial.fields m
    match c.capability with
    | some c => pure c.promise
    | none => startEvaluation host m

def evaluate (m : ModuleId) : Trial σ κ PromiseId := do
  if ← Trial.view fun s => s.isCyclic m then evaluateCyclic host m
  else Trial.ofRun (ModuleGraph.evaluateLeaf host m)

end Checked

namespace Machine

open Relation

variable {journal : σ → Journal} {owner : κ → ModuleId} {reserved : Set PromiseId}
    {hosts : Set (Host σ κ)}
variable {host : Host σ κ} {J : Machine σ κ → Prop} {s s' : Machine σ κ} {o : Focus}
variable {m n d : ModuleId} {t t' : Traversal} {path : List Frame} {f : Frame} {r : String}
variable {asked todo : List String}

theorem isCyclic_of_modules (h : s'.modules = s.modules) (m : ModuleId) :
    s'.isCyclic m = s.isCyclic m := by
  rw [isCyclic, cyclic?, module, h]
  rfl

theorem runSyncBody_sure (hm : s.isCyclic m) :
    Sure J (Checked.runSyncBody host m) (runSyncBody host m) s :=
  .act_demand (fun _ => hm) (.ofRun _)

theorem startAsyncBody_sure (hm : s.isCyclic m)
    (hst : (s.cyclic m).status = .evaluating ∨ (s.cyclic m).status = .evaluatingAsync)
    (hw : (s.cyclic m).hasAwait) :
    Sure J (Checked.startAsyncBody host m) (startAsyncBody host m) s := by
  refine .fields (fun _ => hm) (.demand (fun _ => hst) (.demand (fun _ => hw) ?_))
  refine .bind (.ofRun _) fun c s₁ h₁ => .bind (.ofRun _) fun _ s₂ h₂ => ?_
  cases h₁
  cases h₂
  refine .demand (fun _ => ?_) (.bind (.ofRun _) fun _ _ _ => .ofRun _)
  rw [isCyclic_of_modules (aside_attach _ _ _).1]
  exact hm

theorem await_sure (hm : s.isCyclic m) (hd : s.isCyclic d) :
    Sure J (Checked.await m d) (Run.update fun s => s.await m d) s := by
  refine .fields (fun _ => hd) ?_
  split
  · rename_i ht
    refine .step (.change fun _ => hm) ?_
      (.change fun _ => (isCyclic_updateCyclic s m d _).trans hd)
    simp [await, ht]
  · rename_i ht
    exact .of_eq (q := pure ()) (by simp [await, ht]) (.pure _)

theorem requireLeaf_sure (hc : Conduct journal owner reserved hosts) (hh : host ∈ hosts)
    (h : s.Visiting journal owner reserved o t path) (hm : s.isCyclic m = false) :
    Sure J (Checked.requireLeaf host m) (requireLeaf host m) s := by
  refine .act_demand (fun _ => hm) (.act_bind (.act_lift (.ofRun _)) fun p s₁ hrun => ?_)
  obtain ⟨_, hp, hleaf⟩ := Act.ofRun_eq_some.1 hrun
  cases hp
  have hv := evaluateLeaf_visit hc hh h.coherent h.idle.leaf h.searching.toSound hm hleaf
  refine .act_demand (fun _ => ?_) (.act_bind (.act_lift (.ofRun _)) fun x s₂ hx => ?_)
  · have hsettled := hv.settled
    cases hp : s₁.promise p with
    | pending rs resolved =>
      rw [hp] at hsettled
      exact (hsettled rfl).elim
    | fulfilled v => rfl
    | rejected e handled => rfl
  · cases x with
    | rejected e handled => exact .act_bind (.act_lift (.ofRun _)) fun _ _ _ => .pure _
    | pending rs resolved => exact .pure _
    | fulfilled v => exact .pure _

theorem openEvaluation_sure (hm : s.isCyclic m) (hl : J s → s.status m = .linked) :
    Sure J (Checked.openEvaluation m t) (openEvaluation m t) s :=
  .visit_demand hl <| .visit_bind (.inl rfl) fun _ _ _ h => by
    cases h
    exact .visit_bind (.visit_lift (.change fun _ => hm)) fun _ _ _ _ => .inl rfl

/-! ## What a request has led to -/

theorem Arrived.open_iff (h : s.Arrived journal owner reserved o path n t) (x : ModuleId) :
    (s.cyclic x).status = .evaluating ↔ x ∈ t.stack := by
  cases h with
  | leaf h _ _ => exact h.open_iff x
  | opened h _ => exact h.open_iff x
  | closed h _ _ => exact h.open_iff x
  | left h _ _ => exact h.open_iff x

theorem Arrived.head (h : s.Arrived journal owner reserved o (f :: path) n t) :
    (s.cyclic f.module).status = .evaluating := by
  have hmem : ∀ {path'}, f ∈ path' → s.Visiting journal owner reserved o t path' →
      (s.cyclic f.module).status = .evaluating := fun hf h => h.searching.evaluating hf
  cases h with
  | leaf h _ _ => exact hmem (List.mem_cons_self ..) h
  | opened h _ => exact hmem (List.mem_cons_self ..) h
  | closed h _ _ => exact hmem (List.mem_cons_self ..) h
  | left h _ _ => exact hmem (List.mem_cons_of_mem _ (List.mem_cons_self ..)) h

theorem afterRequest_sure (h : s.Arrived journal owner reserved o (f :: path) n t) :
    Sure J (Checked.afterRequest f.module n t) (afterRequest f.module n t) s := by
  have hm : s.isCyclic f.module := isCyclic_of_awake (Status.awake_of_evaluating h.head)
  refine .of_eq (EvalVisit.view_bind _ _) (.visit_view ?_)
  cases hcyc : s.cyclic? n with
  | none => exact .inl rfl
  | some c =>
    have hn : s.isCyclic n := by
      rw [isCyclic, hcyc]
      rfl
    have hfields : s.cyclic n = c := cyclic_of_cyclic? hcyc
    subst hfields
    refine .visit_demand (fun _ => h.open_iff n) ?_
    by_cases hopen : (s.cyclic n).status = .evaluating
    · rw [if_pos hopen]
      dsimp only
      rw [if_pos hopen]
      refine .visit_lift (.step (q := Run.update fun s => s.await f.module n)
        (.change fun _ => hm) rfl ?_)
      exact await_sure ((isCyclic_updateCyclic s _ _ _).trans hm)
        ((isCyclic_updateCyclic s _ _ _).trans hn)
    · rw [if_neg hopen]
      dsimp only
      rw [if_neg hopen]
      obtain ⟨hs, hroot⟩ := h.rooted hn hopen
      obtain ⟨d, hd⟩ := Option.ne_none_iff_exists'.1 hroot
      have hfinished : (s.cyclic d).status = .evaluatingAsync ∨ (s.cyclic d).status = .evaluated :=
        (hs.searching.member n d hd).finished
      have hdc : s.isCyclic d := isCyclic_of_awake (by
        obtain e | e := hfinished <;> rw [e] <;> exact id)
      refine .of_eq (EvalVisit.view_bind _ _) (.visit_view ?_)
      rw [cycleRoot_eq, hd, Option.getD_some]
      refine .of_eq (EvalVisit.view_bind _ _) (.visit_fields (fun _ => hdc)
        (.visit_demand (fun _ => hfinished) ?_))
      cases (s.cyclic d).error with
      | some e => exact .inl rfl
      | none => exact .visit_lift (await_sure hm hdc)

/-! ## Running and closing -/

theorem runOrWait_sure (h : s.Visiting journal owner reserved o t (⟨m, asked, [], true⟩ :: path)) :
    Sure J (Checked.runOrWait host m t) (runOrWait host m t) s := by
  have hm : s.isCyclic m := isCyclic_of_awake h.head_awake
  refine .of_eq (EvalVisit.view_bind _ _) (.visit_fields (fun _ => hm) ?_)
  by_cases hw : (decide (0 < (s.cyclic m).pending.getD 0) || (s.cyclic m).hasAwait) = true
  · rw [if_pos hw, if_pos hw]
    refine .visit_demand (fun _ => h.fresh.1) ?_
    refine .visit_bind (.visit_lift (.ofRun _)) fun _ t₁ s₁ h₁ => ?_
    cases h₁
    by_cases hp : (s.cyclic m).pending.getD 0 = 0
    · rw [if_pos hp, if_pos hp]
      have hself : (s.takeTurn m).cyclic m = _ :=
        (congrFun (fields_takeTurn h.head_awake) m).trans (Function.update_self ..)
      refine .visit_lift (startAsyncBody_sure ((refields_takeTurn s m).isCyclic m ▸ hm) ?_ ?_)
      · rw [hself]
        exact .inl h.head
      · rw [hself]
        simpa [hp] using hw
    · rw [if_neg hp, if_neg hp]
      exact .inl rfl
  · rw [if_neg hw, if_neg hw]
    exact .visit_act (runSyncBody_sure hm)

theorem closeEvaluation_sure (h : s.Visiting journal owner reserved o t (f :: path)) :
    Sure J (Checked.closeEvaluation f.module t) (closeEvaluation f.module t) s := by
  have hm : f.module ∈ t.stack := (h.open_iff _).1 h.head
  have hcyclic : ∀ x ∈ t.stack, s.isCyclic x := fun x hx =>
    isCyclic_of_awake (Status.awake_of_evaluating ((h.open_iff x).2 hx))
  refine .visit_fields (fun _ => hcyclic _ hm) (.visit_demand (fun _ => ?_) ?_)
  · exact reachesBack_of_le (h.searching.marked _ hm).1 (h.searching.search.low_le _ hm)
  refine .of_eq (EvalVisit.view_bind _ _) ?_
  by_cases hr : (s.cyclic f.module).isRoot
  · rw [if_pos hr, if_pos hr]
    refine .visit_demand (fun _ => hm) (.visit_bind (.inl rfl) fun _ _ _ h => ?_)
    cases h
    refine .visit_bind (.visit_lift ?_) fun _ _ _ _ => .inl rfl
    exact Sure.foldl (I := fun rest s => ∀ x ∈ rest, s.isCyclic x)
      (fun x rest s h => .change fun _ => h x (List.mem_cons_self ..))
      (fun x rest s h y hy =>
        (isCyclic_updateCyclic s x y _).trans (h y (List.mem_cons_of_mem _ hy))) _
      fun x hx => hcyclic x (t.mem_of_close hx)
  · rw [if_neg hr, if_neg hr]
    exact .inl rfl

/-! ## Visits -/

variable {depth : Nat}

/-- All visits that go no deeper go as if nothing was asserted. -/
def VisitsSure (journal : σ → Journal) (owner : κ → ModuleId) (reserved : Set PromiseId)
    (host : Host σ κ) (o : Focus) (depth : Nat) : Prop :=
  ∀ (n : ModuleId) (path : List Frame) (t : Traversal) (s : Machine σ κ),
    s.Visitable journal owner reserved o path n t →
      Sure (fun s => (journal s.host).Stable) (Checked.visitEvaluation host depth n t)
        (visitEvaluation host depth n t) s

theorem requestEvaluation_sure (hc : Conduct journal owner reserved hosts) (hh : host ∈ hosts)
    (ho : o.excused = []) (ih : VisitsSure journal owner reserved host o depth)
    (h : s.Visiting journal owner reserved o t (⟨m, asked, r :: todo, true⟩ :: path)) :
    Sure (fun s => (journal s.host).Stable)
      (Checked.requestEvaluation host (Checked.visitEvaluation host depth) m r t)
      (requestEvaluation host depth m r t) s := by
  refine .visit_bind (.inl rfl) fun n t₁ s₁ hrun => ?_
  obtain ⟨rfl, hr⟩ := EvalVisit.ofAct_eq_some.1 hrun
  have hn := (h.found hc hh hr).1
  refine .visit_bind (ih n _ _ _ hn) fun _ t₂ s₂ hvisit => ?_
  have harrived := (visitEvaluation_ends hc hh ho depth n _ _ _ _ _ _ hn.visiting hn.has
    hn.edge hn.linked hn.late hvisit).2
  exact afterRequest_sure (f := ⟨m, asked, r :: todo, true⟩) harrived

theorem firstVisit_sure (hc : Conduct journal owner reserved hosts) (hh : host ∈ hosts)
    (ho : o.excused = []) (ih : VisitsSure journal owner reserved host o depth)
    (h : s.Visitable journal owner reserved o path m t) (hm : (s.cyclic m).status.IsIdle)
    (hcyclic : s.isCyclic m) :
    Sure (fun s => (journal s.host).Stable)
      ((do
        Checked.openEvaluation m
        (s.cyclic m).requested.forM
          (Checked.requestEvaluation host (Checked.visitEvaluation host depth) m)
        Checked.runOrWait host m
        Checked.closeEvaluation m : TrialVisit Value σ κ Unit) t)
      ((do
        openEvaluation m
        (s.cyclic m).requested.forM (requestEvaluation host depth m)
        runOrWait host m
        closeEvaluation m : EvalVisit σ κ Unit) t) s := by
  have hvisits := visitEvaluation_ends hc hh ho depth
  have hopen := h.visiting.enter hm h.has hcyclic h.edge h.linked h.late
  refine .visit_bind (openEvaluation_sure hcyclic fun hst => ?_) fun _ t₁ s₁ h₁ => ?_
  · have hl := h.linked hst
    rw [status_of_isCyclic hcyclic] at hl ⊢
    revert hl hm
    cases (s.cyclic m).status <;> simp [Status.IsIdle, Status.IsLinked]
  cases h₁
  -- The requests, each with what was handled before it.
  refine .visit_bind (Sure.visit_forM (g := requestEvaluation host depth m)
    (I := fun rest t₁ s₁ => ∃ asked,
      s₁.Visiting journal owner reserved o t₁ (⟨m, asked, rest, true⟩ :: path))
    (fun r rest t₁ s₁ h₁ => h₁.elim fun _ h₁ => requestEvaluation_sure hc hh ho ih h₁)
    (fun r rest t₁ s₁ t₂ s₂ h₁ hrun => ?_) _ _ _ ⟨[], hopen⟩) fun _ t₂ s₂ h₂ => ?_
  · obtain ⟨asked, h₁⟩ := h₁
    refine ⟨asked ++ [r], ?_⟩
    obtain ⟨-, -, h₂⟩ | ⟨e, he, -⟩ := requestEvaluation_ends hc hh hvisits h₁ hrun
    · exact h₂
    · cases he
  obtain ⟨-, -, hs₂⟩ | ⟨e, he, -⟩ := requestsEvaluation_ends hc hh hvisits _ _ _ _ hopen h₂
  swap
  · cases he
  refine .visit_bind (runOrWait_sure hs₂) fun _ t₃ s₃ h₃ => ?_
  obtain ⟨rfl, -, hs₃, -⟩ := hs₂.runOrWait_ends hc hh ho h₃
  exact closeEvaluation_sure (f := ⟨m, _, [], false⟩) hs₃

theorem visitEvaluation_sure (hc : Conduct journal owner reserved hosts) (hh : host ∈ hosts)
    (ho : o.excused = []) (depth : Nat) : VisitsSure journal owner reserved host o depth := by
  induction depth with
  | zero => exact fun _ _ _ _ _ => .inl rfl
  | succ depth ih =>
    intro n path t s h
    rw [Checked.visitEvaluation, visitEvaluation]
    refine .of_eq (EvalVisit.view_bind _ _) (.visit_view ?_)
    cases hcyc : s.cyclic? n with
    | none => exact .visit_act (requireLeaf_sure hc hh h.visiting (by rw [isCyclic, hcyc]; rfl))
    | some c =>
      have hfields : s.cyclic n = c := cyclic_of_cyclic? hcyc
      have hcyclic : s.isCyclic n := by rw [isCyclic, hcyc]; rfl
      subst hfields
      dsimp only
      cases hst : (s.cyclic n).status with
      | unlinked | linking | linked =>
        exact firstVisit_sure hc hh ho ih h (by rw [hst]; trivial) hcyclic
      | evaluating => exact .inl rfl
      | evaluatingAsync | evaluated => cases (s.cyclic n).error <;> exact .inl rfl

/-! ## Whole evaluations -/

variable {known : Finding → Prop} {spare : PromiseId → Prop} {c : Capability} {e : Value}

theorem abandonAll_sure (h : s.Visiting journal owner reserved o t path) (e : Value) :
    Sure J (t.stack.forM (Checked.abandon e)) (Run.update fun s => s.failAll t.stack e) s := by
  refine Sure.foldl (I := fun rest s => rest.Nodup ∧ ∀ x ∈ rest, s.isCyclic x ∧
    (s.cyclic x).status = .evaluating ∧ (s.cyclic x).error = none) (fun x rest s h => ?_)
    (fun x rest s h => ?_) t.stack ⟨h.searching.search.nodup, fun x hx => ?_⟩
  · obtain ⟨hcyc, hst, he⟩ := h.2 x (List.mem_cons_self ..)
    exact .fields (fun _ => hcyc) (.demand (fun _ => hst) (.demand (fun _ => he)
      (.change fun _ => hcyc)))
  · obtain ⟨hnodup, h⟩ := h
    obtain ⟨hx, hrest⟩ := List.nodup_cons.1 hnodup
    refine ⟨hrest, fun y hy => ?_⟩
    have hyx : y ≠ x := fun e => hx (e ▸ hy)
    rw [isCyclic_updateCyclic, cyclic_updateCyclic_of_ne _ hyx]
    exact h y (List.mem_cons_of_mem _ hy)
  · have hst := (h.open_iff x).2 hx
    exact ⟨isCyclic_of_awake (Status.awake_of_evaluating hst), hst,
      ((h.searching.shaped x).opened hst).1⟩

theorem finishEvaluation_sure_ok (hstack : t.stack = []) (m : ModuleId) (c : Capability) :
    Sure J (Checked.finishEvaluation host m c (.ok ()) t.stack)
      (Run.update fun s => s.finishEvaluation host m c (.ok ()) t.stack) s :=
  .step (q := pure ()) (.ofRun _) rfl (.demand_last fun _ => hstack)

theorem finishEvaluation_sure_error (h : s.Visiting journal owner reserved o t path)
    (hcyc : s.isCyclic m) (hm : m ∈ t.stack ∨ (s.cyclic m).status = .evaluated) (c : Capability) :
    Sure J (Checked.finishEvaluation host m c (.error e) t.stack)
      (Run.update fun s => s.finishEvaluation host m c (.error e) t.stack) s := by
  refine .step (q := Run.update fun s => s.reject host.track c e) (abandonAll_sure h e) rfl
    (.demand (fun _ => ?_) (.ofRun _))
  rw [status_of_isCyclic ((refields_failAll s t.stack e).isCyclic m ▸ hcyc), h.fields_failAll]
  split
  · rfl
  · exact hm.resolve_left ‹_›

theorem startEvaluation_sure (hc : Conduct journal owner reserved hosts) (hh : host ∈ hosts)
    (h : s.Resting journal owner reserved known spare) (hm : s.Has m) (hcyc : s.isCyclic m)
    (hnone : (s.cyclic m).capability = none)
    (hroot : (s.cyclic m).root = none ∨ (s.cyclic m).root = some m)
    (hlinked : (s.status m).IsLinked) :
    Sure (fun s => (journal s.host).Stable) (Checked.startEvaluation host m)
      (startEvaluation host m) s := by
  have hv := h.visitable_ask hm hcyc hnone hroot hlinked
  refine .bind (.ofRun _) fun c s₁ h₁ => .bind (.change fun _ => ?_) fun _ s₂ h₂ => ?_
  · cases h₁
    exact hcyc
  cases h₁
  cases h₂
  refine .bind (visitEvaluation_sure hc hh rfl host.depth m [] _ _ hv) fun p s₃ hvisit => ?_
  obtain ⟨result, t⟩ := p
  have hends := visitEvaluation_ends hc hh rfl host.depth m [] ⟨[], 0⟩ t (s.ask m) s₃ result
    hv.visiting hv.has hv.edge hv.linked hv.late hvisit
  refine .bind ?_ fun _ _ _ => .pure _
  cases result with
  | ok u => exact finishEvaluation_sure_ok hends.2.asked.1.searching.search.stack_eq_nil _ _
  | error e =>
    obtain ⟨⟨above, h₁, -⟩, hfailed⟩ := hends
    refine finishEvaluation_sure_error h₁ h₁.coherent.isCyclic_asked (hfailed.imp id fun hf => ?_) _
    refine (hf.resolve_left fun hl => ?_).1
    rw [isCyclic_ask, hcyc] at hl
    cases hl

/-- The capability of a module that answers for a cycle is looked up, or made. -/
theorem Resting.answer_sure (hc : Conduct journal owner reserved hosts) (hh : host ∈ hosts)
    (h : s.Resting journal owner reserved known spare) (hm : s.Has m) (hcyc : s.isCyclic m)
    (hlinked : (s.status m).IsLinked)
    (hroot : (s.cyclic m).root = none ∨ (s.cyclic m).root = some m) :
    Sure (fun s => (journal s.host).Stable)
      (do
        let c ← Trial.fields m
        match c.capability with
        | some c => pure c.promise
        | none => Checked.startEvaluation host m)
      (do
        match ← Run.view fun s => (s.cyclic m).capability with
        | some c => pure c.promise
        | none => startEvaluation host m) s := by
  refine .of_eq (Run.view_bind _ _) (.fields (fun _ => hcyc) ?_)
  cases hcap : (s.cyclic m).capability with
  | some c => exact .pure _
  | none => exact startEvaluation_sure hc hh h hm hcyc hcap hroot hlinked

theorem evaluateCyclic_sure (hc : Conduct journal owner reserved hosts) (hh : host ∈ hosts)
    (h : s.Resting journal owner reserved known spare) (hm : s.Has m) (hcyc : s.isCyclic m) :
    Sure (fun s => (journal s.host).Stable) (Checked.evaluateCyclic host m)
      (evaluateCyclic host m) s := by
  refine .bind (.ofRun _) fun status s₁ h₁ => ?_
  cases h₁
  cases hr : refusal? (s.status m) with
  | some message => exact .bind (.ofRun _) fun _ _ _ => .ofRun _
  | none =>
    have hlinked := isLinked_of_refusal? hr
    dsimp only
    by_cases hl : s.status m = .linked
    · rw [if_pos hl, if_pos hl]
      refine .bind (.pure _) fun q s₁ h₁ => ?_
      cases h₁
      refine h.answer_sure hc hh hm hcyc hlinked (.inl ((h.sound.shaped m).idle ?_).1.2.1)
      rw [status_of_isCyclic hcyc] at hl
      rw [show ((s.graph journal .rest).fields m).status = _ from hl]
      trivial
    · rw [if_neg hl, if_neg hl]
      refine .fields (fun _ => hcyc) (.bind (.ofRun _) fun q s₁ h₁ => ?_)
      cases h₁
      dsimp only
      rw [cycleRoot_eq]
      cases hroot : (s.cyclic m).root with
      | none => exact h.answer_sure hc hh hm hcyc hlinked (.inl hroot)
      | some q =>
        have hq := (h.sound.member m q hroot).root
        have hawake := (h.sound.shaped q).not_idle_of_root (by
          rw [hq]
          exact fun e => nomatch e)
        exact h.answer_sure hc hh (has_of_awake hawake) (isCyclic_of_awake hawake)
          (isLinked_of_awake hawake) (.inr hq)

/-- An evaluation goes as if nothing was asserted, as long as resolution is stable. -/
theorem Resting.evaluate_sure (hc : Conduct journal owner reserved hosts) (hh : host ∈ hosts)
    (h : s.Resting journal owner reserved known spare) (hm : s.Has m) :
    Sure (fun s => (journal s.host).Stable) (Checked.evaluate host m) (host.evaluate m) s := by
  refine .bind (.ofRun _) fun b s₁ h₁ => ?_
  cases h₁
  split
  · exact evaluateCyclic_sure hc hh h hm ‹_›
  · exact .ofRun _

end Machine

end ModuleGraph

import ModuleGraph.Proofs.Operations.Terms

/-! # What evaluation does to the machine

Terms that hold across small changes hold across the run of a body, the visits of an evaluation,
and what becomes of the modules that wait. The modules that a visit leaves open may be touched. -/

namespace ModuleGraph

variable {σ κ α : Type}

namespace Carries

variable {host : Host σ κ} {w : Terms σ κ} {s s' : Machine σ κ}
variable {m : ModuleId} {c : Capability}

/-! ## Bodies -/

theorem runBody (h : Carries host w) (m : ModuleId) :
    Within w.change (ModuleGraph.runBody host m) := by
  refine Within.bind h.toComposes (Within.view h.toComposes _) fun kind => ?_
  split
  · exact h.chores.execute m
  · exact h.chores.executeForeign m
  · exact h.fail _ _
  · exact h.fail _ _

theorem runSyncBody (h : Carries host w) (m : ModuleId) :
    Within w.change (ModuleGraph.runSyncBody host m) := by
  refine Within.bind h.toComposes (h.runBody m) fun execution => ?_
  split
  · exact Within.pure h.toComposes _
  · exact h.fail _ _

theorem continueBody (h : Carries host w) (s : Machine σ κ) (m : ModuleId)
    (execution : Except Value (Execution κ)) (hc : w.may s (.promise c.promise)) :
    w.change s (s.continueBody host m c execution) := by
  match execution with
  | .ok .completed => exact h.resolve s .undefined hc
  | .ok (.waiting p code) => exact h.attach s p hc ⟨nofun, nofun, fun _ => rfl⟩ nofun
  | .error e => exact h.reject s e hc

theorem startAsyncBody (h : Carries host w) {a : Unit} (hm : w.may s (.module m))
    (hrun : ModuleGraph.startAsyncBody host m s = some (a, s')) : w.change s s' := by
  refine h.assume fun hs => ?_
  rw [ModuleGraph.startAsyncBody, Run.make_bind, Run.update_bind] at hrun
  obtain ⟨hnew, hs₁, hc⟩ := h.newCapability hs
  have hattach : w.change s.newCapability.2 (s.newCapability.2.attach host.track
      s.newCapability.1.promise ⟨.bodyEnded m, none⟩) :=
    h.attach _ _ (h.may hs hnew hm) ⟨nofun, nofun, fun _ => rfl⟩ nofun
  obtain ⟨execution, s₃, hbody, hrun⟩ := Run.bind_eq_some.1 hrun
  have hran := h.trans hattach (h.runBody m _ _ _ hbody)
  cases hrun
  exact h.trans hnew (h.trans hran (h.continueBody s₃ m execution (h.may hs₁ hran hc)))

/-! ## Evaluation -/

theorem keepAnswer (h : Carries host w) (hs : w.known s) {p : PromiseId}
    (hm : w.may s (.module m)) (hp : w.may s (.promise p)) :
    w.change s (s.updateKind m fun
        | .leaf _ => .leaf (.evaluated p)
        | k => k) ∧
      w.may (s.updateKind m fun
        | .leaf _ => .leaf (.evaluated p)
        | k => k) (.promise p) := by
  have hkeep : w.change s (s.updateKind m fun
      | .leaf _ => .leaf (.evaluated p)
      | k => k) := by
    refine h.leaf s hm hp (fun _ => rfl) fun k hk => ?_
    cases k with
    | leaf state => cases hk
    | source r env c => rfl
    | foreign i c => rfl
  exact ⟨hkeep, h.may hs hkeep hp⟩

theorem leafEvaluated (h : Carries host w) {p : PromiseId} (hs : w.known s)
    (hrun : ModuleGraph.evaluateLeaf host m s = some (p, s')) :
    w.change s s' ∧ w.may s' (.promise p) := by
  rw [ModuleGraph.evaluateLeaf, Run.view_bind] at hrun
  have hrefused : ∀ {p s'}, (do
      let e ← Run.make fun s =>
        s.newError .typeError "Module must be linked before it can be evaluated"
      Run.make fun s => s.newRejected host.track e : Run σ κ PromiseId) s = some (p, s') →
        w.change s s' ∧ w.may s' (.promise p) := by
    intro p s' hrun
    rw [Run.make_bind, Run.make_apply] at hrun
    have herror : w.change s
        (s.newError .typeError "Module must be linked before it can be evaluated").2 :=
      h.incidental ⟨rfl, rfl, rfl, rfl, rfl, rfl, rfl, rfl⟩
    obtain ⟨hc, hp⟩ := h.newRejected (h.known hs herror)
      (s.newError .typeError "Module must be linked before it can be evaluated").1
    rw [Option.some.inj hrun] at hc hp
    exact ⟨h.trans herror hc, hp⟩
  cases hk : (s.module m).kind with
  | source r env c =>
    simp only [hk] at hrun
    exact hrefused hrun
  | foreign i c =>
    simp only [hk] at hrun
    exact hrefused hrun
  | leaf state =>
    cases state with
    | unlinked =>
      simp only [hk] at hrun
      exact hrefused hrun
    | evaluated q =>
      simp only [hk] at hrun
      cases hrun
      exact ⟨h.refl s, h.leafAnswer hs hk⟩
    | linked =>
      simp only [hk] at hrun
      obtain ⟨result, s₁, hbody, hrun⟩ := Run.bind_eq_some.1 hrun
      have hran := h.chores.evaluateLeaf m _ _ _ hbody
      have hs₁ := h.known hs hran
      have hrefusal : refusal? (s.status m) = none := by
        rw [Machine.status, hk]
        rfl
      have hm := h.may hs hran (h.linked hs hrefusal)
      cases result with
      | ok u =>
        have hnew : w.change s₁ (s₁.newFulfilled .undefined).2 := h.newPromise s₁ trivial
        obtain ⟨hkeep, hp⟩ := h.keepAnswer (h.known hs₁ hnew) (h.may hs₁ hnew hm)
          (h.fresh (.fulfilled .undefined) hs₁)
        cases hrun
        exact ⟨h.trans hran (h.trans hnew hkeep), hp⟩
      | error e =>
        obtain ⟨hnew, hp⟩ := h.newRejected hs₁ e
        obtain ⟨hkeep, hp⟩ := h.keepAnswer (h.known hs₁ hnew) (h.may hs₁ hnew hm) hp
        cases hrun
        exact ⟨h.trans hran (h.trans hnew hkeep), hp⟩

theorem requireLeaf (h : Carries host w) (m : ModuleId) :
    Within w.change (ModuleGraph.requireLeaf host m) := by
  refine Within.bind h.toComposes (Within.ofRun fun s p s' hrun => ?_) fun p => ?_
  · exact h.assume fun hs => (h.leafEvaluated hs hrun).1
  refine Within.bind h.toComposes (Within.view h.toComposes _) fun state => ?_
  split
  · exact Within.bind h.toComposes (Within.update fun s => h.markHandled s p) fun _ =>
      Within.throw h.toComposes _
  · exact Within.pure h.toComposes _
  · exact Within.pure h.toComposes _

theorem await (h : Carries host w) {required : ModuleId} (hm : w.may s (.module m))
    (hr : w.may s (.module required)) : w.change s (s.await m required) := by
  refine h.assume fun hs => ?_
  rw [Machine.await]
  split
  · have hpending : w.change s
        (s.updateCyclic m fun c => { c with pending := c.pending.map (· + 1) }) :=
      h.cyclic s hm fun c => .of_eq rfl (.inl rfl) rfl rfl rfl
    refine h.trans hpending (h.cyclic _ (h.may hs hpending hr) fun c => ?_)
    refine ⟨rfl, .inl rfl, fun _ hd => .inl hd, fun _ hx => .inl hx, fun x hx => ?_⟩
    rcases List.mem_append.1 hx with hx | hx
    · exact .inl hx
    · rw [List.mem_singleton.1 hx]
      exact .inr (h.may hs hpending hm)
  · exact h.refl s

theorem takeTurn (h : Carries host w) (hm : w.may s (.module m)) : w.change s (s.takeTurn m) := by
  have hturn : w.change s (s.updateCyclic m fun c => { c with order := .turn s.nextTurn }) :=
    h.cyclic s hm fun c => .of_eq rfl (.inl rfl) rfl rfl rfl
  exact h.trans hturn (h.incidental ⟨rfl, rfl, rfl, rfl, rfl, rfl, rfl, rfl⟩)

section Visit

variable {t t' : Traversal} {r : Except Value Unit}

theorem stacked (h : Carries host w) (hs : w.known s) (hc : w.change s s')
    (ht : w.Stacked t s) : w.Stacked t s' := fun x hx => h.may hs hc (ht x hx)

theorem openEvaluation (h : Carries host w) (hs : w.known s) (ht : w.Stacked t s)
    (hm : w.may s (.module m)) {a : Except Value Unit}
    (hrun : ModuleGraph.openEvaluation m t s = some ((a, t'), s')) :
    w.change s s' ∧ w.Stacked t' s' := by
  cases hrun
  have hopen : w.change s (s.updateCyclic m fun c => { c with
      status := .evaluating, visit := some t.visits, ancestor := some t.visits,
      pending := some 0 }) :=
    h.cyclic s hm fun c => .of_eq rfl (.inr trivial) rfl rfl rfl
  refine ⟨hopen, fun x hx => ?_⟩
  rcases List.mem_cons.1 hx with rfl | hx
  · exact h.may hs hopen hm
  · exact h.may hs hopen (ht x hx)

theorem afterRequest (h : Carries host w) {required : ModuleId} (hs : w.known s)
    (hm : w.may s (.module m)) (hr : w.may s (.module required))
    (hrun : ModuleGraph.afterRequest m required t s = some ((r, t'), s')) :
    w.change s s' ∧ t' = t := by
  rw [ModuleGraph.afterRequest, EvalVisit.view_bind] at hrun
  cases hcyc : s.cyclic? required with
  | none =>
    simp only [hcyc] at hrun
    cases hrun
    exact ⟨h.refl s, rfl⟩
  | some c =>
    simp only [hcyc] at hrun
    by_cases hopen : c.status = .evaluating
    · rw [if_pos hopen] at hrun
      cases hrun
      have hreach : w.change s (s.updateCyclic m (·.reach c.ancestor)) :=
        h.cyclic s hm fun c => .of_eq rfl (.inl rfl) rfl rfl rfl
      exact ⟨h.trans hreach (h.await (h.may hs hreach hm) (h.may hs hreach hr)), rfl⟩
    · rw [if_neg hopen, EvalVisit.view_bind, EvalVisit.view_bind] at hrun
      cases herror : (s.cyclic (s.cycleRoot required)).error with
      | some e =>
        simp only [herror] at hrun
        cases hrun
        exact ⟨h.refl s, rfl⟩
      | none =>
        simp only [herror] at hrun
        cases hrun
        exact ⟨h.await hm (h.root hs hr), rfl⟩

theorem runOrWait (h : Carries host w) (hs : w.known s) (hm : w.may s (.module m))
    (hrun : ModuleGraph.runOrWait host m t s = some ((r, t'), s')) :
    w.change s s' ∧ t' = t := by
  rw [ModuleGraph.runOrWait, EvalVisit.view_bind] at hrun
  by_cases hwait : (0 < (s.cyclic m).pending.getD 0 || (s.cyclic m).hasAwait) = true
  · rw [if_pos hwait, EvalVisit.update_bind] at hrun
    have hturn := h.takeTurn hm
    by_cases hready : (s.cyclic m).pending.getD 0 = 0
    · rw [if_pos hready] at hrun
      obtain ⟨rfl, a, -, hstart⟩ := EvalVisit.ofRun_eq_some.1 hrun
      exact ⟨h.trans hturn (h.startAsyncBody (h.may hs hturn hm) hstart), rfl⟩
    · rw [if_neg hready] at hrun
      cases hrun
      exact ⟨hturn, rfl⟩
  · rw [if_neg hwait] at hrun
    obtain ⟨rfl, hbody⟩ := EvalVisit.ofAct_eq_some.1 hrun
    exact ⟨h.runSyncBody m _ _ _ hbody, rfl⟩

theorem close (w : Terms σ κ) (s : Machine σ κ) {root : ModuleId} (hroot : w.may s (.module root))
    (c : Cyclic) : w.Allows s c (c.close root) where
  requested := rfl
  status := by
    cases ho : c.order with
    | unset => exact .inr (by rw [Cyclic.close, ho]; trivial)
    | turn n => exact .inr (by rw [Cyclic.close, ho]; trivial)
    | done => exact .inl (by rw [Cyclic.close, ho])
  capability _ hd := .inl hd
  root _ hm := by
    cases hm
    exact .inr hroot
  parents _ hx := .inl hx

theorem closed (h : Carries host w) (cycle : List ModuleId) :
    ∀ {s}, w.known s → (∀ x ∈ cycle, w.may s (.module x)) → w.may s (.module m) →
      w.change s (cycle.foldl (fun s x => s.updateCyclic x (Cyclic.close m)) s) := by
  induction cycle with
  | nil => exact fun _ _ _ => h.refl _
  | cons x rest ih =>
    intro s hs hxs hm
    have hx := h.cyclic s (hxs x (List.mem_cons_self ..)) (close w s hm)
    exact h.trans hx (ih (h.known hs hx)
      (fun y hy => h.may hs hx (hxs y (List.mem_cons_of_mem _ hy))) (h.may hs hx hm))

theorem closeEvaluation (h : Carries host w) (hs : w.known s) (ht : w.Stacked t s)
    (hm : w.may s (.module m))
    (hrun : ModuleGraph.closeEvaluation m t s = some ((r, t'), s')) :
    w.change s s' ∧ w.Stacked t' s' := by
  rw [ModuleGraph.closeEvaluation, EvalVisit.view_bind] at hrun
  split at hrun
  · cases hrun
    have happend := t.close_append m
    have hclosed := h.closed (t.close m).1 hs
      (fun x hx => ht x (happend ▸ List.mem_append_left _ hx)) hm
    exact ⟨hclosed, fun x hx => h.may hs hclosed (ht x (happend ▸ List.mem_append_right _ hx))⟩
  · cases hrun
    exact ⟨h.refl s, ht⟩

/-- The requests of a module, when the visits of a smaller depth carry on. -/
theorem requestsEvaluation (h : Carries host w) {depth : Nat}
    (ih : ∀ {n t s r t' s'}, w.known s → w.Stacked t s → w.may s (.module n) →
      ModuleGraph.visitEvaluation host depth n t s = some ((r, t'), s') →
        w.change s s' ∧ w.Stacked t' s') (requests : List String) :
    ∀ {t s r t' s'}, w.known s → w.Stacked t s → w.may s (.module m) →
      (∀ request ∈ requests, w.may s (.request m request)) →
      (requests.forM fun request => do
        let required ← EvalVisit.ofAct (host.resolve (.module m) request)
        ModuleGraph.visitEvaluation host depth required
        ModuleGraph.afterRequest m required) t s = some ((r, t'), s') →
        w.change s s' ∧ w.Stacked t' s' := by
  induction requests with
  | nil =>
    intro t s r t' s' _ ht _ _ hrun
    cases hrun
    exact ⟨h.refl s, ht⟩
  | cons request rest ihr =>
    intro t s r t' s' hs ht hm hrequests hrun
    have hone : ∀ {r₁ t₁ s₁}, (do
        let required ← EvalVisit.ofAct (host.resolve (.module m) request)
        ModuleGraph.visitEvaluation host depth required
        ModuleGraph.afterRequest m required : EvalVisit σ κ Unit) t s = some ((r₁, t₁), s₁) →
          w.change s s₁ ∧ w.Stacked t₁ s₁ := by
      intro r₁ t₁ s₁ hrun
      obtain ⟨n, t₂, s₂, h₁, h₂⟩ | ⟨e, h₁, -⟩ := visit_bind.1 hrun
      · obtain ⟨rfl, hresolve⟩ := EvalVisit.ofAct_eq_some.1 h₁
        have hasked := h.chores.resolve _ _ _ _ _ hresolve
        have hn := h.answered hs (hrequests request (List.mem_cons_self ..)) hresolve
        have hs₂ := h.known hs hasked
        obtain ⟨_, t₃, s₃, h₃, h₄⟩ | ⟨e, h₃, -⟩ := visit_bind.1 h₂
        · obtain ⟨hvisit, ht₃⟩ := ih hs₂ (h.stacked hs hasked ht) hn h₃
          have hs₃ := h.known hs₂ hvisit
          obtain ⟨hafter, rfl⟩ := h.afterRequest hs₃ (h.may hs₂ hvisit (h.may hs hasked hm))
            (h.may hs₂ hvisit hn) h₄
          exact ⟨h.trans hasked (h.trans hvisit hafter), h.stacked hs₃ hafter ht₃⟩
        · obtain ⟨hvisit, ht₁⟩ := ih hs₂ (h.stacked hs hasked ht) hn h₃
          exact ⟨h.trans hasked hvisit, ht₁⟩
      · obtain ⟨rfl, hresolve⟩ := EvalVisit.ofAct_eq_some.1 h₁
        have hasked := h.chores.resolve _ _ _ _ _ hresolve
        exact ⟨hasked, h.stacked hs hasked ht⟩
    obtain ⟨t₁, s₁, h₁, h₂⟩ | ⟨e, h₁, -⟩ := visit_forM_cons.1 hrun
    · obtain ⟨hc, ht₁⟩ := hone h₁
      obtain ⟨hc', ht'⟩ := ihr (h.known hs hc) ht₁ (h.may hs hc hm)
        (fun q hq => h.may hs hc (hrequests q (List.mem_cons_of_mem _ hq))) h₂
      exact ⟨h.trans hc hc', ht'⟩
    · exact hone h₁

theorem enterEvaluation (h : Carries host w) {depth : Nat}
    (ih : ∀ {n t s r t' s'}, w.known s → w.Stacked t s → w.may s (.module n) →
      ModuleGraph.visitEvaluation host depth n t s = some ((r, t'), s') →
        w.change s s' ∧ w.Stacked t' s')
    (hs : w.known s) (ht : w.Stacked t s) (hm : w.may s (.module m))
    (hrun : (do
      ModuleGraph.openEvaluation m
      (s.requested m).forM fun request => do
        let required ← EvalVisit.ofAct (host.resolve (.module m) request)
        ModuleGraph.visitEvaluation host depth required
        ModuleGraph.afterRequest m required
      ModuleGraph.runOrWait host m
      ModuleGraph.closeEvaluation m : EvalVisit σ κ Unit) t s = some ((r, t'), s')) :
    w.change s s' ∧ w.Stacked t' s' := by
  have hrequests := h.asked hs hm
  obtain ⟨_, t₁, s₁, h₁, h₂⟩ | ⟨e, h₁, -⟩ := visit_bind.1 hrun
  · obtain ⟨hopen, ht₁⟩ := h.openEvaluation hs ht hm h₁
    have hs₁ := h.known hs hopen
    have hm₁ := h.may hs hopen hm
    have hrequests₁ : ∀ q ∈ s.requested m, w.may s₁ (.request m q) := fun q hq =>
      h.may hs hopen (hrequests q hq)
    obtain ⟨_, t₂, s₂, h₃, h₄⟩ | ⟨e, h₃, -⟩ := visit_bind.1 h₂
    · obtain ⟨hc, ht₂⟩ := h.requestsEvaluation ih _ hs₁ ht₁ hm₁ hrequests₁ h₃
      have hs₂ := h.known hs₁ hc
      have hm₂ := h.may hs₁ hc hm₁
      obtain ⟨_, t₃, s₃, h₅, h₆⟩ | ⟨e, h₅, -⟩ := visit_bind.1 h₄
      · obtain ⟨hran, rfl⟩ := h.runOrWait hs₂ hm₂ h₅
        obtain ⟨hclose, ht'⟩ := h.closeEvaluation (h.known hs₂ hran) (h.stacked hs₂ hran ht₂)
          (h.may hs₂ hran hm₂) h₆
        exact ⟨h.trans hopen (h.trans hc (h.trans hran hclose)), ht'⟩
      · obtain ⟨hran, rfl⟩ := h.runOrWait hs₂ hm₂ h₅
        exact ⟨h.trans hopen (h.trans hc hran), h.stacked hs₂ hran ht₂⟩
    · obtain ⟨hc, ht'⟩ := h.requestsEvaluation ih _ hs₁ ht₁ hm₁ hrequests₁ h₃
      exact ⟨h.trans hopen hc, ht'⟩
  · exact h.openEvaluation hs ht hm h₁

/-- A module that is evaluated already, or waits, says again how its evaluation has ended. -/
theorem restate (h : Carries host w) {e? : Option Value} {t t' : Traversal} {r : Except Value Unit}
    (ht : w.Stacked t s) (hrun : (match e? with
      | some e => throw e
      | none => pure () : EvalVisit σ κ Unit) t s = some ((r, t'), s')) :
    w.change s s' ∧ w.Stacked t' s' := by
  cases e? <;> cases hrun <;> exact ⟨h.refl s, ht⟩

theorem visitEvaluation (h : Carries host w) (depth : Nat) :
    ∀ {m t s r t' s'}, w.known s → w.Stacked t s → w.may s (.module m) →
      ModuleGraph.visitEvaluation host depth m t s = some ((r, t'), s') →
        w.change s s' ∧ w.Stacked t' s' := by
  induction depth with
  | zero =>
    intro m t s r t' s' _ _ _ hrun
    cases hrun
  | succ depth ih =>
    intro m t s r t' s' hs ht hm hrun
    rw [ModuleGraph.visitEvaluation, EvalVisit.view_bind] at hrun
    cases hcyc : s.cyclic? m with
    | none =>
      simp only [hcyc] at hrun
      obtain ⟨rfl, hrequire⟩ := EvalVisit.ofAct_eq_some.1 hrun
      have hleaf := h.requireLeaf m _ _ _ hrequire
      exact ⟨hleaf, h.stacked hs hleaf ht⟩
    | some c =>
      simp only [hcyc] at hrun
      rw [← Machine.requested_of_cyclic? hcyc] at hrun
      cases hstatus : c.status <;> simp only [hstatus] at hrun
      case evaluatingAsync | evaluated => exact h.restate ht hrun
      case evaluating =>
        cases hrun
        exact ⟨h.refl s, ht⟩
      case unlinked | linking | linked => exact h.enterEvaluation ih hs ht hm hrun

end Visit

theorem finishEvaluation (h : Carries host w) {result : Except Value Unit} {t : Traversal}
    (hs : w.known s) (ht : w.Stacked t s) (hc : w.may s (.promise c.promise)) :
    w.change s (s.finishEvaluation host m c result t.stack) := by
  cases result with
  | error e =>
    have hfailed := h.cyclics (f := fun c => c.fail e)
      (fun _ _ => .of_eq rfl (.inr trivial) rfl rfl rfl) t.stack s ht
    exact h.trans hfailed (h.reject _ e (h.may hs hfailed hc))
  | ok u =>
    rw [Machine.finishEvaluation]
    split
    · exact h.resolve s _ hc
    · exact h.refl s

theorem startEvaluation (h : Carries host w) {p : PromiseId} (hs : w.known s)
    (hm : w.may s (.module m)) (hrun : ModuleGraph.startEvaluation host m s = some (p, s')) :
    w.change s s' ∧ w.may s' (.promise p) := by
  rw [ModuleGraph.startEvaluation, Run.make_bind, Run.update_bind] at hrun
  obtain ⟨hnew, hs₁, hc⟩ := h.newCapability hs
  have hkeep : w.change s.newCapability.2 (s.newCapability.2.updateCyclic m fun x =>
      { x with capability := some s.newCapability.1 }) := by
    refine h.cyclic _ (h.may hs hnew hm) fun c => ?_
    refine ⟨rfl, .inl rfl, fun d hd => ?_, fun _ hx => .inl hx, fun _ hx => .inl hx⟩
    cases hd
    exact .inr hc
  have hs₂ := h.known hs₁ hkeep
  obtain ⟨⟨result, t⟩, s₃, hvisit, hrun⟩ := Run.bind_eq_some.1 hrun
  obtain ⟨hvisited, ht⟩ := h.visitEvaluation host.depth hs₂ (t := ⟨[], 0⟩) nofun
    (h.may hs₁ hkeep (h.may hs hnew hm)) hvisit
  have hs₃ := h.known hs₂ hvisited
  have hc₃ := h.may hs₂ hvisited (h.may hs₁ hkeep hc)
  cases hrun
  have hfinish : w.change s₃
      (s₃.finishEvaluation host m s.newCapability.1 result t.stack) :=
    h.finishEvaluation hs₃ ht hc₃
  exact ⟨h.trans hnew (h.trans hkeep (h.trans hvisited hfinish)), h.may hs₃ hfinish hc₃⟩

/-- The evaluation of a root is the one that was asked for before, or it starts now. -/
theorem askRoot (h : Carries host w) {p : PromiseId} {root : ModuleId} (hs : w.known s)
    (hroot : w.may s (.module root)) (hrun : (do
      match ← Run.view fun s => (s.cyclic root).capability with
      | some c => pure c.promise
      | none => ModuleGraph.startEvaluation host root) s = some (p, s')) :
    w.change s s' ∧ w.may s' (.promise p) := by
  rw [Run.view_bind] at hrun
  cases hasked : (s.cyclic root).capability with
  | some c =>
    simp only [hasked] at hrun
    cases hrun
    exact ⟨h.refl s, h.answer hs hasked⟩
  | none =>
    simp only [hasked] at hrun
    exact h.startEvaluation hs hroot hrun

theorem evaluateCyclic (h : Carries host w) {p : PromiseId} (hs : w.known s)
    (hrun : ModuleGraph.evaluateCyclic host m s = some (p, s')) :
    w.change s s' ∧ w.may s' (.promise p) := by
  rw [ModuleGraph.evaluateCyclic, Run.view_bind] at hrun
  cases hrefusal : refusal? (s.status m) with
  | some message =>
    simp only [hrefusal, Run.make_bind, Run.make_apply] at hrun
    have herror : w.change s (s.newError .typeError message).2 :=
      h.incidental ⟨rfl, rfl, rfl, rfl, rfl, rfl, rfl, rfl⟩
    obtain ⟨hc, hp⟩ := h.newRejected (h.known hs herror) (s.newError .typeError message).1
    rw [Option.some.inj hrun] at hc hp
    exact ⟨h.trans herror hc, hp⟩
  | none =>
    simp only [hrefusal] at hrun
    have hm := h.linked hs hrefusal
    by_cases hlinked : s.status m = .linked
    · rw [if_pos hlinked] at hrun
      exact h.askRoot hs hm hrun
    · rw [if_neg hlinked] at hrun
      exact h.askRoot hs (h.root hs hm) hrun

/-- The promise that an evaluation gives is one that operations settle. -/
theorem evaluated (h : Carries host w) {p : PromiseId} (hs : w.known s)
    (hrun : host.evaluate m s = some (p, s')) : w.change s s' ∧ w.may s' (.promise p) := by
  rw [Host.evaluate, Run.view_bind] at hrun
  by_cases hcyc : s.isCyclic m = true
  · rw [if_pos hcyc] at hrun
    exact h.evaluateCyclic hs hrun
  · rw [if_neg hcyc] at hrun
    exact h.leafEvaluated hs hrun

theorem evaluate (h : Carries host w) (m : ModuleId) : Along w.change (host.evaluate m) :=
  fun _ _ _ hrun => h.assume fun hs => (h.evaluated hs hrun).1

/-! ## Modules that wait -/

theorem gatherReady (h : Carries host w) (fuel : Nat) :
    ∀ {s} m ready, w.known s → (∀ x ∈ ready, w.may s (.module x)) →
      w.change s (Machine.gatherReady fuel s m ready).2 ∧
        ∀ x ∈ (Machine.gatherReady fuel s m ready).1,
          w.may (Machine.gatherReady fuel s m ready).2 (.module x) := by
  induction fuel with
  | zero => exact fun _ _ _ hready => ⟨h.refl _, hready⟩
  | succ fuel ih =>
    intro s m ready hs hready
    have hone : ∀ {s ready x}, w.known s → (∀ y ∈ ready, w.may s (.module y)) →
        w.may s (.module x) →
        w.change s (Machine.gatherOne (Machine.gatherReady fuel) s ready x).2 ∧
          ∀ y ∈ (Machine.gatherOne (Machine.gatherReady fuel) s ready x).1,
            w.may (Machine.gatherOne (Machine.gatherReady fuel) s ready x).2 (.module y) := by
      intro s ready x hs hready hx
      have hrelease : w.change s (s.release x) :=
        h.cyclic s hx fun c => .of_eq rfl (.inl rfl) rfl rfl rfl
      have hjoin : ∀ y ∈ ready ++ [x], w.may (s.release x) (.module y) := fun y hy =>
        h.may hs hrelease ((List.mem_append.1 hy).elim (hready y) fun e =>
          List.mem_singleton.1 e ▸ hx)
      rw [Machine.gatherOne]
      split
      · exact ⟨h.refl s, hready⟩
      · split
        · exact ⟨h.refl s, hready⟩
        · exact ⟨h.refl s, hready⟩
        · dsimp only
          split
          · split
            · exact ⟨hrelease, hjoin⟩
            · obtain ⟨hc, hall⟩ := ih x _ (h.known hs hrelease) hjoin
              exact ⟨h.trans hrelease hc, hall⟩
          · exact ⟨hrelease, fun y hy => h.may hs hrelease (hready y hy)⟩
    have hparents : ∀ x ∈ (s.cyclic m).parents, w.may s (.module x) := fun x => h.parent hs
    rw [Machine.gatherReady]
    revert hparents
    induction (s.cyclic m).parents generalizing s ready with
    | nil => exact fun _ => ⟨h.refl s, hready⟩
    | cons x rest ihx =>
      intro hparents
      obtain ⟨hc, hall⟩ := hone hs hready (hparents x (List.mem_cons_self ..))
      obtain ⟨hc', hall'⟩ := ihx _ (h.known hs hc) hall fun y hy =>
        h.may hs hc (hparents y (List.mem_cons_of_mem _ hy))
      exact ⟨h.trans hc hc', hall'⟩

theorem answered_module (h : Carries host w) (s : Machine σ κ) (m : ModuleId) :
    w.change s (s.answer host m) := by
  refine h.assume fun hs => ?_
  rw [Machine.answer]
  split
  · rename_i c hc
    exact h.resolve s _ (h.answer hs hc)
  · exact h.refl s

theorem completed (h : Carries host w) (hm : w.may s (.module m)) :
    w.change s ((s.complete m).answer host m) := by
  refine h.trans ?_ (h.answered_module _ m)
  exact h.cyclic s hm fun c => .of_eq rfl (.inr trivial) rfl rfl rfl

theorem failWaiting (h : Carries host w) (fuel : Nat) :
    ∀ {s m} e, w.may s (.module m) → w.change s (Machine.failWaiting host fuel s m e) := by
  induction fuel with
  | zero => exact fun _ _ => h.refl _
  | succ fuel ih =>
    intro s m e hm
    refine h.assume fun hs => ?_
    rw [Machine.failWaiting]
    dsimp only
    split
    · exact h.refl s
    · have hfail : w.change s (s.updateCyclic m fun c => { c.fail e with order := .done }) :=
        h.cyclic s hm fun c => .of_eq rfl (.inr trivial) rfl rfl rfl
      have hparents : ∀ (xs : List ModuleId) {s}, w.known s → (∀ x ∈ xs, w.may s (.module x)) →
          w.change s (xs.foldl (fun s x => s.failWaiting host fuel x e) s) := by
        intro xs
        induction xs with
        | nil => exact fun _ _ => h.refl _
        | cons x rest ihx =>
          intro s hs hxs
          have hx := ih e (hxs x (List.mem_cons_self ..))
          exact h.trans hx (ihx (h.known hs hx) fun y hy =>
            h.may hs hx (hxs y (List.mem_cons_of_mem _ hy)))
      have hall := h.trans hfail (hparents (s.cyclic m).parents (h.known hs hfail)
        fun x hx => h.may hs hfail (h.parent hs hx))
      split
      · rename_i c hc
        exact h.trans hall (h.reject _ e (h.may hs hall (h.answer hs hc)))
      · exact hall

theorem runReady (h : Carries host w) (hm : w.may s (.module m)) {a : Unit}
    (hrun : ModuleGraph.runReady host m s = some (a, s')) : w.change s s' := by
  refine h.assume fun hs => ?_
  rw [ModuleGraph.runReady, Run.view_bind] at hrun
  by_cases hdone : (s.cyclic m).status = .evaluated
  · rw [if_pos hdone] at hrun
    cases hrun
    exact h.refl s
  rw [if_neg hdone] at hrun
  by_cases hawait : (s.cyclic m).hasAwait = true
  · rw [if_pos hawait] at hrun
    exact h.startAsyncBody hm hrun
  rw [if_neg hawait] at hrun
  obtain ⟨result, s₁, hbody, hrun⟩ := Run.bind_eq_some.1 hrun
  have hran := h.runSyncBody m _ _ _ hbody
  have hm₁ := h.may hs hran hm
  cases result with
  | ok u =>
    cases hrun
    exact h.trans hran (h.completed hm₁)
  | error e =>
    cases hrun
    exact h.trans hran (h.failWaiting _ e hm₁)

theorem bodySucceeded (h : Carries host w) (hm : w.may s (.module m)) {a : Unit}
    (hrun : ModuleGraph.bodySucceeded host m s = some (a, s')) : w.change s s' := by
  refine h.assume fun hs => ?_
  rw [ModuleGraph.bodySucceeded, Run.view_bind] at hrun
  by_cases hdone : s.status m = .evaluated
  · rw [if_pos hdone] at hrun
    cases hrun
    exact h.refl s
  rw [if_neg hdone, Run.update_bind, Run.make_bind, Run.view_bind] at hrun
  have hcompleted := h.completed hm
  obtain ⟨hgathered, hready⟩ := h.gatherReady
    (((s.complete m).answer host m).modules.size + 1) m [] (h.known hs hcompleted) nofun
  have hrest : ∀ (xs : List ModuleId) {s}, w.known s → (∀ x ∈ xs, w.may s (.module x)) →
      ∀ {a s'}, (xs.forM (ModuleGraph.runReady host)) s = some (a, s') → w.change s s' := by
    intro xs
    induction xs with
    | nil =>
      intro s _ _ a s' hrun
      cases hrun
      exact h.refl s
    | cons x rest ih =>
      intro s hs hxs a s' hrun
      obtain ⟨_, s₁, h₁, h₂⟩ := Run.bind_eq_some.1 hrun
      have hx := h.runReady (hxs x (List.mem_cons_self ..)) h₁
      exact h.trans hx (ih (h.known hs hx)
        (fun y hy => h.may hs hx (hxs y (List.mem_cons_of_mem _ hy))) h₂)
  refine h.trans hcompleted (h.trans hgathered (hrest _ (h.known (h.known hs hcompleted) hgathered)
    (fun x hx => hready x ?_) hrun))
  exact (List.mergeSort_perm _ _).mem_iff.1 hx

end Carries

end ModuleGraph

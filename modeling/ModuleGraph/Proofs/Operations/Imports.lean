import ModuleGraph.Proofs.Operations.Evaluation

/-! # What dynamic imports and handlers do to the machine

Terms that hold across small changes hold across dynamic imports, as far as they hold across the
link of the imported module, and across the handlers of reactions. -/

namespace ModuleGraph

variable {σ κ α : Type}

namespace Carries

variable {host : Host σ κ} {w : Terms σ κ} {s s' : Machine σ κ}
variable {m : ModuleId} {c : Capability}

/-! ## Dynamic imports -/

theorem specifierText (h : Carries host w) (v : Value) :
    Within w.change (ModuleGraph.specifierText v : Act σ κ String) := by
  rw [ModuleGraph.specifierText]
  split
  · exact Within.pure h.toComposes _
  · exact h.fail _ _

theorem importCall (h : Carries host w) {referrer : Referrer}
    (htold : ∀ text ticket, Along w.change (host.importRequested referrer text ticket))
    (specifier : Value) : Along w.change (host.importCall referrer specifier) := by
  intro s p s' hrun
  refine h.assume fun hs => ?_
  rw [Host.importCall, Run.make_bind] at hrun
  obtain ⟨hnew, hs₁, hc⟩ := h.newCapability hs
  obtain ⟨result, s₂, htext, hrun⟩ := Run.bind_eq_some.1 hrun
  cases result with
  | error e =>
    cases hrun
    have hfail := h.specifierText specifier _ _ _ htext
    exact h.trans hnew (h.trans hfail (h.reject s₂ e (h.may hs₁ hfail hc)))
  | ok text =>
    -- The text of a specifier is found without changing the machine.
    have hsame : s₂ = s.newCapability.2 := by
      rw [ModuleGraph.specifierText] at htext
      split at htext <;> cases htext
      rfl
    subst hsame
    dsimp only at hrun
    rw [Run.make_bind] at hrun
    obtain ⟨_, s₃, hrequested, hrun⟩ := Run.bind_eq_some.1 hrun
    cases hrun
    exact h.trans (h.openImport s referrer text) (htold _ _ _ _ _ hrequested)

theorem toValue (h : Carries host w) (e : LinkError) :
    Along w.change (e.toValue : Run σ κ Value) := by
  rw [LinkError.toValue]
  split
  · exact Along.pure h.toComposes _
  · exact Along.make fun s => h.incidental ⟨rfl, rfl, rfl, rfl, rfl, rfl, rfl, rfl⟩

/-- Linking and evaluating an imported module, when the terms hold across its link. -/
theorem loadImported (h : Carries host w)
    (hlink : ∀ r s₁, host.link m s = some (r, s₁) → w.change s s₁)
    (hc : w.may s (.promise c.promise)) {a : Unit}
    (hrun : host.loadImported c m s = some (a, s')) : w.change s s' := by
  refine h.assume fun hs => ?_
  obtain ⟨result, s₁, hlinked, hrun⟩ := Run.bind_eq_some.1 hrun
  have h₁ := hlink _ _ hlinked
  cases result with
  | error e =>
    obtain ⟨v, s₂, hvalue, hrun⟩ := Run.bind_eq_some.1 hrun
    have h₂ := h.trans h₁ (h.toValue e _ _ _ hvalue)
    cases hrun
    exact h.trans h₂ (h.reject s₂ v (h.may hs h₂ hc))
  | ok u =>
    obtain ⟨p, s₂, hevaluated, hrun⟩ := Run.bind_eq_some.1 hrun
    have h₂ := h.trans h₁ (h.evaluate m _ _ _ hevaluated)
    cases hrun
    refine h.trans h₂ (h.attach s₂ p trivial ⟨nofun, nofun, nofun⟩ fun d hd => ?_)
    cases hd
    exact h.may hs h₂ hc

theorem importMeta (h : Carries host w) (m : ModuleId) : Along w.change (host.importMeta m) := by
  refine Along.bind h.toComposes (Along.view h.toComposes _) fun o => ?_
  split
  · exact Along.pure h.toComposes _
  · refine Along.bind h.toComposes
      (Along.make fun s => h.incidental ⟨rfl, rfl, rfl, rfl, rfl, rfl, rfl, rfl⟩) fun o => ?_
    refine Along.bind h.toComposes (h.chores.metaProperties m) fun values => ?_
    refine Along.bind h.toComposes (Along.update fun s => ?_) fun _ => ?_
    · refine h.foldl (fun s p => ?_) values s
      exact h.incidental ⟨rfl, rfl, rfl, rfl, rfl, rfl, rfl, rfl⟩
    refine Along.bind h.toComposes (h.chores.finishMeta o m) fun _ => ?_
    refine Along.bind h.toComposes (Along.update fun s => ?_) fun _ => Along.pure h.toComposes o
    exact h.update s m fun _ => ⟨rfl, rfl⟩

/-! ## Handlers -/

theorem joinFulfilled (h : Carries host w) {j : JoinId} (position : Nat) (v : Value)
    (hset : ∀ new : Join, new.capability = (s.join j).capability →
      w.change s { s with joins := s.joins.setIfInBounds j.index new })
    (hj : w.may s (.promise (s.join j).capability.promise)) :
    w.change s (s.joinFulfilled host.track j position v) := by
  refine h.assume fun hs => ?_
  rw [Machine.joinFulfilled]
  dsimp only
  have hjoin : w.change s { s with
      joins := s.joins.setIfInBounds j.index
        { s.join j with
          remaining := (s.join j).remaining - 1
          values := (s.join j).values.set position v } } :=
    hset _ rfl
  split
  · refine h.trans hjoin ?_
    have hobject : ∀ (s : Machine σ κ) o, w.change s (s.newObject o).2 := fun _ _ =>
      h.incidental ⟨rfl, rfl, rfl, rfl, rfl, rfl, rfl, rfl⟩
    refine h.trans (hobject _ _) (h.resolve _ _ ?_)
    exact h.may (h.known hs hjoin) (hobject _ _) (h.may hs hjoin hj)
  · exact hjoin

/-- A handler other than a callback of the host and those of joint waits. -/
theorem runHandler (h : Carries host w) {handler : Handler κ} {x : Settlement}
    {r : Except Value Value} (hcallback : ∀ code, handler = .callback code →
      Within w.change (host.call code x))
    (hset : ∀ j k, handler = .joined j k → ∀ new : Join, new.capability = (s.join j).capability →
      w.change s { s with joins := s.joins.setIfInBounds j.index new })
    (hh : w.Admits s handler)
    (hrun : ModuleGraph.runHandler host handler x s = some (r, s')) : w.change s s' := by
  refine h.assume fun hs => ?_
  cases handler with
  | passOn => exact Within.ofExcept h.toComposes x.toExcept _ _ _ hrun
  | callback code => exact hcallback code rfl _ _ _ hrun
  | bodyEnded m =>
    cases x with
    | fulfilled v =>
      obtain ⟨_, s₁, h₁, h₂⟩ | ⟨e, h₁, -⟩ := throwing_bind.1 hrun
      · obtain ⟨a, -, h₁⟩ := Act.ofRun_eq_some.1 h₁
        cases h₂
        exact h.bodySucceeded hh h₁
      · obtain ⟨a, ha, -⟩ := Act.ofRun_eq_some.1 h₁
        cases ha
    | rejected e =>
      cases hrun
      exact h.failWaiting _ e hh
  | resumeBody m c code =>
    obtain ⟨execution, s₁, h₁, h₂⟩ | ⟨e, h₁, -⟩ := throwing_bind.1 hrun
    · obtain ⟨a, ha, h₁⟩ := Act.ofRun_eq_some.1 h₁
      cases ha
      have hresumed := h.chores.resume code x _ _ _ h₁
      cases h₂
      exact h.trans hresumed (h.continueBody s₁ m execution (h.may hs hresumed hh))
    · obtain ⟨a, ha, -⟩ := Act.ofRun_eq_some.1 h₁
      cases ha
  | imported m =>
    cases x with
    | fulfilled v => exact h.namespaceOf m _ _ _ hrun
    | rejected e => exact Within.throw h.toComposes e _ _ _ hrun
  | joined j position =>
    cases x with
    | fulfilled v =>
      cases hrun
      exact h.joinFulfilled position v (hset j position rfl) hh
    | rejected e =>
      cases hrun
      exact h.reject s e hh

end Carries

end ModuleGraph

import ModuleGraph.Proofs.Evaluation.Changes

/-! # Telling the parents

A module whose work is done owes its end to its parents. They are told one after the other, and one
that waits for nothing more is ready to run. -/

namespace ModuleGraph.Graph

open Relation

variable {g g' : Graph} {m x d q : ModuleId}

/-! ## The end of a module that waited -/

def finish (g : Graph) (m : ModuleId) (debt released : List ModuleId) : Graph :=
  { g.set m { g.fields m with order := .done, status := .evaluated } with debt, released }

theorem sets_finish (g : Graph) (m : ModuleId) (debt released : List ModuleId) :
    g.Sets (g.finish m debt released) m
      { g.fields m with order := .done, status := .evaluated } := sets_set g m _

theorem grows_finish (hm : g.Shaped m) (hs : (g.fields m).status = .evaluatingAsync)
    (debt released : List ModuleId) : g.Grows (g.finish m debt released) := by
  obtain ⟨he, -, hturn⟩ := hm.waiting hs
  refine (sets_finish g m debt released).grows (fun _ he => he) (fun _ hl => hl) (fun _ _ ht => ht)
    rfl rfl (fun _ => ⟨rfl, fun ho => ?_, .inr rfl⟩) (fun _ hx => hx) fun _ => ⟨rfl, he⟩
  rw [ho] at hturn
  cases hturn

theorem waits_finish (hm : g.Shaped m) (hi : ¬(g.fields m).status.IsIdle)
    (debt : List ModuleId) {released : List ModuleId}
    (hreleased : ∀ x, x ≠ m → (x ∈ released ↔ x ∈ g.released)) (x : ModuleId) :
    (g.finish m debt released).waits x + g.weight x m = g.waits x := by
  have hset := sets_finish g m debt released
  have hw : (g.finish m debt released).waits x + g.weight x m =
      g.waits x + (g.finish m debt released).weight x m :=
    waits_change rfl (hm.sized hi) fun d hd => weight_congr
      (owes_congr (by rw [hset.2 d hd]) (by rw [hset.2 d hd]) (hreleased d hd))
      (by rw [hset.2 d hd])
  have h0 : (g.finish m debt released).weight x m = 0 := by
    rw [weight, if_neg]
    simp [owes, hset.1, AsyncOrder.isTurn]
  omega

theorem shaped_finish (hm : g.Shaped m) (hs : (g.fields m).status = .evaluatingAsync)
    (hstarts : g.starts m = 1) (hend : g.Ended m) (debt released : List ModuleId) :
    (g.finish m debt released).Shaped m := by
  have hgrows := grows_finish hm hs debt released
  obtain ⟨he, hr, -⟩ := hm.waiting hs
  have hi : ¬(g.fields m).status.IsIdle := Status.awake_of_evaluatingAsync hs
  constructor <;> rw [(sets_finish g m debt released).1]
  case idle => exact fun hi => hi.elim
  case opened => rintro ⟨⟩
  case waiting => rintro ⟨⟩
  case complete => exact fun _ _ => ⟨hr, by simp [AsyncOrder.isTurn], hstarts, hend⟩
  case unset => rintro ⟨⟩
  case turn => exact fun k hk => by cases hk
  case unstarted => rintro ⟨⟩
  case failed => exact fun hf => (hf he).elim
  case done => exact fun _ => hr
  case sized => exact fun _ => hm.sized hi
  case once => exact fun _ => hm.once hi
  case blamed => exact fun v hv => (hm.blamed v hv).grows hgrows

theorem Sound.finish (h : g.Sound) {debt released : List ModuleId}
    (hm : (g.fields m).status = .evaluatingAsync) (hstarts : g.starts m = 1) (hend : g.Ended m)
    (hready : m ∉ g.ready) (hreleased : ∀ x, x ≠ m → (x ∈ released ↔ x ∈ g.released))
    (hdebt : ∀ x, debt.count x = g.debt.count x + g.weight x m) :
    (g.finish m debt released).Sound := by
  have hset := sets_finish g m debt released
  obtain ⟨he, hr, hturn⟩ := (h.shaped m).waiting hm
  have hgrows := grows_finish (h.shaped m) hm debt released
  have herror := hset.field (·.error) rfl
  have hroot := hset.field (·.root) rfl
  have hmi : ¬(g.fields m).status.IsIdle := Status.awake_of_evaluatingAsync hm
  refine h.change hset hgrows rfl rfl rfl le_rfl (fun _ hx => hx) (fun _ _ => rfl) rfl ?hopen
    (shaped_finish (h.shaped m) hm hstarts hend debt released) (fun x k hx hk => nomatch hk)
    ?hawaits ?hbalanced ?hready ?hrunning
  case hopen =>
    rw [hm]
    exact ⟨fun e => (nomatch e), fun e => (nomatch e)⟩
  case hawaits =>
    intro d x hx e
    rw [hset.field (·.parents) rfl] at hx
    have ha := h.awaits d x hx
    refine ⟨?_, fun k k' hk hk' => ?_, ?_, fun hs => hgrows.complete d (ha.started hs), ha.opened,
      ?_, ReflTransGen.mono hgrows.requests _ _ ha.reach⟩
    · by_cases ex : x = m
      · rw [ex, hset.1]
        exact id
      · rw [hset.2 x ex]
        exact ha.awake
    · rcases e with rfl | rfl
      · rw [hset.1] at hk'
        cases hk'
      · rw [hset.1] at hk
        cases hk
    · rw [Failed, Failed, herror, herror]
      exact ha.failed
    · rw [hroot, hroot]
      exact ha.root
  case hbalanced =>
    intro x hx hdoom
    have hxm : x ≠ m := by
      rintro rfl
      rw [hset.1] at hx
      rcases hx with hx | hx <;> cases hx
    rw [hset.2 x hxm] at hx
    refine (h.balanced x hx hdoom).congr (hset.field (·.pending) rfl x) ?_ ?_
    · have := hdebt x
      have := waits_finish (h.shaped m) hmi debt hreleased x
      change (g.finish m debt released).waits x + debt.count x = _
      omega
    · rw [RootFailed, RootFailed, hroot, Failed, Failed, herror]
      exact id
  case hready =>
    intro x hx hxe
    have hxm : x ≠ m := fun e => hready (e ▸ hx)
    rw [hset.2 x hxm] at hxe ⊢
    exact h.ready x hx hxe
  case hrunning =>
    intro x hxo hxe hxp hxr hxl
    have hxm : x ≠ m := by
      rintro rfl
      rw [hset.1] at hxo
      cases hxo
    rw [hset.2 x hxm] at hxo hxe hxp ⊢
    exact h.running x hxo hxe hxp hxr fun hx => hxl ((hreleased x hxm).2 hx)

/-! ## Telling the parents -/

def release (g : Graph) (m : ModuleId) (pending : Nat) (debt ready released : List ModuleId) :
    Graph :=
  { g.set m { g.fields m with pending := some pending } with debt, ready, released }

theorem sets_release (g : Graph) (m : ModuleId) (pending : Nat)
    (debt ready released : List ModuleId) : g.Sets (g.release m pending debt ready released) m
      { g.fields m with pending := some pending } := sets_set g m _

theorem grows_release (hm : (g.fields m).status = .evaluatingAsync)
    (k : Nat) (debt ready released : List ModuleId) :
    g.Grows (g.release m k debt ready released) :=
  (sets_release g m k debt ready released).grows (fun _ he => he) (fun _ hl => hl)
    (fun _ _ ht => ht) rfl rfl
    (fun _ => ⟨rfl, id, .inl hm⟩) (fun _ hx => hx) fun hc => hc

/-- What is left of the debts and what is added to them is what the module owed until now. -/
theorem waits_release {k : Nat} {debt rest released : List ModuleId} (ready : List ModuleId)
    (hsized : m.index < g.size) (howes : g.owes m) (hmreleased : m ∉ g.released)
    (hreleased : ∀ x, x ∈ released ↔ x ∈ g.released ∨
      x = m ∧ k = 0 ∧ (g.fields m).hasAwait = false)
    (hdebt : debt = if k = 0 ∧ (g.fields m).hasAwait = false then (g.fields m).parents ++ rest
      else rest) (x : ModuleId) :
    (g.release m k debt ready released).waits x + debt.count x = g.waits x + rest.count x := by
  have hset := sets_release g m k debt ready released
  have horder := hset.field (·.order) rfl
  have herror := hset.field (·.error) rfl
  have hparents := hset.field (·.parents) rfl
  have hw : (g.release m k debt ready released).waits x + g.weight x m =
      g.waits x + (g.release m k debt ready released).weight x m :=
    waits_change rfl hsized fun d hd => weight_congr (owes_congr (horder d) (herror d)
      ((hreleased d).trans ⟨fun e => e.resolve_right fun e => hd e.1, .inl⟩)) (hparents d)
  by_cases hk : k = 0 ∧ (g.fields m).hasAwait = false
  · have hmem : m ∈ released := (hreleased m).2 (.inr ⟨rfl, hk⟩)
    have h0 : (g.release m k debt ready released).weight x m = 0 := by
      rw [weight, if_neg]
      simp only [owes, Bool.and_eq_true, not_and, Bool.not_eq_true', Bool.not_eq_false]
      exact fun _ => List.contains_iff_mem.2 hmem
    have hcount : debt.count x = (g.fields m).parents.count x + rest.count x := by
      rw [hdebt, if_pos hk, List.count_append]
    have hwm : g.weight x m = (g.fields m).parents.count x := by rw [weight, if_pos howes]
    omega
  · have hmem : m ∉ released := fun e => ((hreleased m).1 e).elim hmreleased fun e => hk e.2
    have h1 : (g.release m k debt ready released).weight x m = g.weight x m :=
      weight_congr (owes_congr (horder m) (herror m) (iff_of_false hmem hmreleased)) (hparents m)
    have hcount : debt.count x = rest.count x := by rw [hdebt, if_neg hk]
    omega

theorem Sound.release (h : g.Sound) {k : Nat} {debt rest ready released : List ModuleId}
    (hm : (g.fields m).status = .evaluatingAsync) (hp : (g.fields m).pending = some (k + 1))
    (hdebt : g.debt = m :: rest) (hmready : m ∉ g.ready) (hmreleased : m ∉ g.released)
    (hready : ∀ x, x ∈ ready ↔ x ∈ g.ready ∨ x = m ∧ k = 0)
    (hreleased : ∀ x, x ∈ released ↔ x ∈ g.released ∨
      x = m ∧ k = 0 ∧ (g.fields m).hasAwait = false)
    (hdebt' : debt = if k = 0 ∧ (g.fields m).hasAwait = false then (g.fields m).parents ++ rest
      else rest) : (g.release m k debt ready released).Sound := by
  have hset := sets_release g m k debt ready released
  have hstage := hset.sameStage rfl rfl rfl rfl
  have hgrows := grows_release hm k debt ready released
  obtain ⟨he, hr, hturn⟩ := (h.shaped m).waiting hm
  have hparents := hset.field (·.parents) rfl
  have hsized : m.index < g.size := (h.shaped m).sized (Status.awake_of_evaluatingAsync hm)
  have hstarts : g.starts m = 0 := (h.shaped m).unstarted hturn he (by rw [hp]; simp)
  have howes : g.owes m := by simp [owes, hturn, he, hmreleased]
  refine h.change hset hgrows rfl rfl rfl le_rfl (fun _ hx => hx) (fun _ _ => rfl) rfl Iff.rfl
    ?hshaped (fun x k hx hk hk' => hx (h.distinct x m k hk' hk)) ?hawaits ?hbalanced ?hready
    ?hrunning
  case hshaped =>
    refine (hstage m).shaped (h.shaped m) hgrows (fun _ => id) rfl le_rfl le_rfl (fun hu => ?_)
      fun _ _ _ => hstarts
    rw [hparents]
    exact (h.shaped m).unset hu
  case hawaits =>
    intro d x hx _
    rw [hparents] at hx
    have ha := h.awaits d x hx
    exact SameStage.awaits (hstage x) (hstage d) ha hgrows id rfl ha.opened
  case hbalanced =>
    intro x hx hdoom
    rw [(hstage x).status] at hx
    have hsum := waits_release ready hsized howes hmreleased hreleased hdebt' x
    have hfailed := (SameStage.rootFailed_iff (x := x) hstage).2
    have hb := h.balanced x hx hdoom
    have hnew : (g.release m k debt ready released).debt = debt := rfl
    by_cases e : x = m
    · subst e
      refine hb.shift hp (by rw [hset.1]) ?_ hfailed
      rw [hdebt, hnew, List.count_cons_self]
      omega
    · refine hb.congr (by rw [hset.2 x e]) ?_ hfailed
      rw [hdebt, hnew, List.count_cons_of_ne (Ne.symm e)]
      omega
  case hready =>
    intro x hx hxe
    rcases (hready x).1 hx with hx | ⟨rfl, rfl⟩
    · have hxm : x ≠ m := fun e => hmready (e ▸ hx)
      rw [hset.2 x hxm] at hxe ⊢
      exact h.ready x hx hxe
    · rw [hset.1]
      exact ⟨hm, rfl, hstarts⟩
  case hrunning =>
    intro x hxo hxe hxp hxr hxl
    have hxr' : x ∉ g.ready := fun e => hxr ((hready x).2 (.inl e))
    by_cases e : x = m
    · subst e
      rw [hset.1] at hxp
      cases hxp
      exact (hxr ((hready x).2 (.inr ⟨rfl, rfl⟩))).elim
    · rw [hset.2 x e] at hxo hxe hxp ⊢
      exact h.running x hxo hxe hxp hxr' fun e => hxl ((hreleased x).2 (.inl e))

/-- A module that has failed, or whose cycle has, need not be told. -/
theorem Sound.forgive (h : g.Sound) {debt : List ModuleId} (hdebt : g.debt = m :: debt)
    (hm : (g.fields m).status = .evaluating ∨ (g.fields m).status = .evaluatingAsync →
      g.RootFailed m) : ({ g with debt } : Graph).Sound := by
  refine h.beside (fun _ _ _ _ hx => .inr hx) (fun x hx hdoom => ?_) (fun _ hx _ => hx) h.running
  obtain ⟨k, hk, hle, hge⟩ := h.balanced x hx hdoom
  rw [hdebt] at hle hge
  refine ⟨k, hk, ?_, fun hf => ?_⟩
  · change g.waits x + debt.count x ≤ k
    have := List.count_le_count_cons (a := x) (b := m) (l := debt)
    omega
  · have hxm : x ≠ m := by
      rintro rfl
      exact hf (hm hx)
    rw [List.count_cons_of_ne (Ne.symm hxm)] at hge
    exact hge hf

end ModuleGraph.Graph

import ModuleGraph.Proofs.Evaluation.Changes

/-! # Waiting for a module

An open module that has neither run nor got a turn can wait for one that has a turn. It counts one
thing more that it waits for, and it is noted as a parent. -/

namespace ModuleGraph.Graph

open Relation

variable {g g' : Graph} {m x d q : ModuleId} {debt : List ModuleId}

def expect (g : Graph) (m : ModuleId) : Graph :=
  { g.set m { g.fields m with pending := (g.fields m).pending.map (· + 1) } with
    debt := m :: g.debt }

theorem sets_expect (g : Graph) (m : ModuleId) : g.Sets (g.expect m) m
    { g.fields m with pending := (g.fields m).pending.map (· + 1) } := sets_set g m _

theorem grows_expect (h : g.Sound) (hm : (g.fields m).status = .evaluating) :
    g.Grows (g.expect m) :=
  (sets_expect g m).grows (fun _ he => he) (fun _ hl => hl) (fun _ _ ht => ht) rfl rfl
    (fun e => (e ((h.shaped m).opened hm).2.1).elim) (fun _ hx => hx) fun hc => hc

theorem waits_expect (g : Graph) (m x : ModuleId) : (g.expect m).waits x = g.waits x := by
  have hset := sets_expect g m
  exact waits_of_weight rfl fun d => weight_congr
    (owes_congr (hset.field (·.order) rfl d) (hset.field (·.error) rfl d) Iff.rfl)
    (hset.field (·.parents) rfl d)

theorem Sound.expect (h : g.Sound) (hm : (g.fields m).status = .evaluating)
    (ho : (g.fields m).order = .unset) (hready : m ∉ g.ready) : (g.expect m).Sound := by
  have hset := sets_expect g m
  have hstage := hset.sameStage rfl rfl rfl rfl
  have hgrows := grows_expect h hm
  refine h.change hset hgrows rfl rfl rfl le_rfl (fun _ hx => hx) (fun _ _ => rfl) rfl Iff.rfl
    ?hshaped (fun x k _ hk => nomatch ho.symm.trans hk) ?hawaits ?hbalanced ?hready ?hrunning
  case hshaped =>
    refine (hstage m).shaped (h.shaped m) hgrows (fun _ => id) rfl le_rfl le_rfl (fun hu => ?_)
      fun hturn => ?_
    · rw [hset.field (·.parents) rfl]
      exact (h.shaped m).unset hu
    · rw [ho] at hturn
      cases hturn
  case hawaits =>
    intro d x hx _
    rw [hset.field (·.parents) rfl] at hx
    have ha := h.awaits d x hx
    exact SameStage.awaits (hstage x) (hstage d) ha hgrows id rfl ha.opened
  case hbalanced =>
    intro x hx hd
    rw [(hstage x).status] at hx
    have hb := h.balanced x hx hd
    have hfailed := (SameStage.rootFailed_iff (x := x) hstage).2
    have hwaits := waits_expect g m x
    have hdebt : (g.expect m).debt = m :: g.debt := rfl
    by_cases e : x = m
    · subst e
      obtain ⟨k, hk, -⟩ := id hb
      have hk' : ((g.expect x).fields x).pending = some (k + 1) := by
        rw [hset.1, hk]
        rfl
      refine hb.shift hk hk' ?_ hfailed
      rw [hdebt, List.count_cons_self]
      omega
    · refine hb.congr (by rw [hset.2 x e]) ?_ hfailed
      rw [hdebt, List.count_cons_of_ne (Ne.symm e), hwaits]
  case hready =>
    intro x hx hxe
    have hxm : x ≠ m := fun e => hready (e ▸ hx)
    rw [hset.2 x hxm] at hxe ⊢
    exact h.ready x hx hxe
  case hrunning =>
    intro x hxo hxe hxp hxr hxl
    by_cases e : x = m
    · rw [(hstage x).order, e, ho] at hxo
      cases hxo
    · rw [hset.2 x e] at hxo hxe hxp ⊢
      exact h.running x hxo hxe hxp hxr hxl

theorem not_idle_of_turn (h : g.Sound) (hd : (g.fields d).order.isTurn) :
    ¬(g.fields d).status.IsIdle := fun hi => by
  rw [((h.shaped d).idle hi).1.2.2.1] at hd
  cases hd

theorem turn_of_owes (h : g.owes d) :
    (g.fields d).order.isTurn ∧ (g.fields d).error = none := by
  simp only [owes, Bool.and_eq_true, Option.isNone_iff_eq_none] at h
  exact ⟨h.1.1, h.1.2⟩

def register (g : Graph) (m d : ModuleId) (debt : List ModuleId) : Graph :=
  { g.set d { g.fields d with parents := (g.fields d).parents ++ [m] } with debt }

theorem sets_register (g : Graph) (m d : ModuleId) (debt : List ModuleId) :
    g.Sets (g.register m d debt) d { g.fields d with parents := (g.fields d).parents ++ [m] } :=
  sets_set g d _

theorem grows_register (h : g.Sound) (hd : ¬(g.fields d).status.IsIdle) (debt : List ModuleId) :
    g.Grows (g.register m d debt) := by
  refine (sets_register g m d debt).grows (fun _ he => he) (fun _ hl => hl)
    (fun _ _ ht => ht) rfl rfl
    (fun hr => ⟨rfl, id, ?_⟩) (fun _ hx => List.mem_append_left _ hx) fun hc => hc
  rcases Status.cases_awake hd with hs | hs | hs
  · exact (hr ((h.shaped d).opened hs).2.1).elim
  · exact .inl hs
  · exact .inr hs

/-- The module waits for one thing more, if the other one owes its end. -/
theorem waits_register (hsized : d.index < g.size) (hd : g.owes d) (m : ModuleId)
    (debt : List ModuleId) (x : ModuleId) :
    (g.register m d debt).waits x = g.waits x + if x = m then 1 else 0 := by
  have hset := sets_register g m d debt
  have howes : ∀ d', (g.register m d debt).owes d' = g.owes d' := fun d' =>
    owes_congr (hset.field (·.order) rfl d') (hset.field (·.error) rfl d') Iff.rfl
  have hw : (g.register m d debt).waits x + g.weight x d =
      g.waits x + (g.register m d debt).weight x d :=
    waits_change rfl hsized fun d' hd' => weight_congr (howes d') (by rw [hset.2 d' hd'])
  rw [weight, weight, howes, if_pos hd, if_pos hd, hset.1, List.count_append] at hw
  by_cases e : x = m
  · subst e
    simp at hw ⊢
    omega
  · simp [e, Ne.symm e] at hw ⊢
    omega

theorem awaits_register (h : g.Sound) (hgrows : g.Grows (g.register m d debt))
    (hm : (g.fields m).status = .evaluating) (ho : (g.fields m).order = .unset)
    (hstarts : g.starts m = 0) (he : (g.fields d).error = none)
    (hroot : ∀ q, (g.fields d).root = some q → q = d) (hreach : ReflTransGen g.Requests m d) :
    (g.register m d debt).Awaits m d := by
  have hset := sets_register g m d debt
  constructor
  case awake =>
    rw [hset.field (·.status) rfl, hm]
    exact id
  case turn =>
    intro k k' _ hk
    rw [hset.field (·.order) rfl, ho] at hk
    cases hk
  case failed =>
    intro hf
    rw [Failed, hset.field (·.error) rfl] at hf
    exact (hf he).elim
  case started => exact fun hs => (hs hstarts).elim
  case opened => exact fun _ => (h.open_iff m).1 hm
  case root =>
    intro q hq hne
    rw [hset.field (·.root) rfl] at hq
    exact (hne (hroot q hq)).elim
  case reach => exact ReflTransGen.mono hgrows.requests _ _ hreach

theorem Sound.register (h : g.Sound) (hdebt : g.debt = m :: debt)
    (hm : (g.fields m).status = .evaluating) (ho : (g.fields m).order = .unset)
    (hstarts : g.starts m = 0) (hd : g.owes d) (hroot : ∀ q, (g.fields d).root = some q → q = d)
    (hreach : ReflTransGen g.Requests m d) : (g.register m d debt).Sound := by
  have hset := sets_register g m d debt
  have hstage := hset.sameStage rfl rfl rfl rfl
  have hpending := hset.field (·.pending) rfl
  obtain ⟨hdturn, hde⟩ := turn_of_owes hd
  have hdi := not_idle_of_turn h hdturn
  have hgrows := grows_register (m := m) h hdi debt
  refine h.change hset hgrows rfl rfl rfl le_rfl (fun _ hx => hx) (fun _ _ => rfl) rfl Iff.rfl
    ?hshaped (fun x k hx hk hk' => hx (h.distinct x d k hk' hk)) ?hawaits ?hbalanced ?hready
    ?hrunning
  case hshaped =>
    refine (hstage d).shaped (h.shaped d) hgrows (fun _ => id) rfl le_rfl le_rfl (fun hu => ?_)
      fun hturn he hp => (h.shaped d).unstarted hturn he (hpending d ▸ hp)
    rw [hu] at hdturn
    cases hdturn
  case hawaits =>
    intro d' x hx _
    have hold : x ∈ (g.fields d').parents → (g.register m d debt).Awaits x d' := fun hx =>
      have ha := h.awaits d' x hx
      SameStage.awaits (hstage x) (hstage d') ha hgrows id rfl ha.opened
    by_cases ed : d' = d
    · subst ed
      rw [hset.1] at hx
      rcases List.mem_append.1 hx with hx | hx
      · exact hold hx
      · rw [List.mem_singleton.1 hx]
        exact awaits_register h hgrows hm ho hstarts hde hroot hreach
    · rw [hset.2 d' ed] at hx
      exact hold hx
  case hbalanced =>
    intro x hx hdoom
    rw [(hstage x).status] at hx
    refine (h.balanced x hx hdoom).congr (hpending x) ?_
      (SameStage.rootFailed_iff (x := x) hstage).2
    have hwaits := waits_register ((h.shaped d).sized hdi) hd m debt x
    change (g.register m d debt).waits x + debt.count x = _
    by_cases e : x = m
    · subst e
      rw [hdebt, List.count_cons_self, hwaits, if_pos rfl]
      omega
    · rw [hdebt, List.count_cons_of_ne (Ne.symm e), hwaits, if_neg e, Nat.add_zero]
  case hready =>
    intro x hx hxe
    rw [(hstage x).error] at hxe
    rw [(hstage x).status, hpending]
    exact h.ready x hx hxe
  case hrunning =>
    intro x hxo hxe hxp hxr hxl
    rw [(hstage x).order] at hxo
    rw [(hstage x).error] at hxe
    rw [hpending] at hxp
    rw [hset.field (·.hasAwait) rfl]
    exact h.running x hxo hxe hxp hxr hxl

def await (g : Graph) (m d : ModuleId) : Graph :=
  if (g.fields d).order.isTurn then (g.expect m).register m d g.debt else g

/-- Only the number of waits of the one and the parents of the other change. -/
theorem field_await {β : Type} (g : Graph) (m d : ModuleId) (f : Cyclic → β)
    (hf : ∀ c k ps, f { c with pending := k, parents := ps } = f c) (x : ModuleId) :
    f ((g.await m d).fields x) = f (g.fields x) := by
  rw [await]
  split
  · rw [(sets_register _ m d _).field f (hf _ _ _), (sets_expect g m).field f (hf _ _ _)]
  · rfl

theorem side_await (g : Graph) (m d : ModuleId) :
    (g.await m d).journal = g.journal ∧ (g.await m d).stack = g.stack ∧
      (g.await m d).path = g.path ∧ (g.await m d).visits = g.visits ∧
      (g.await m d).ready = g.ready ∧ (g.await m d).released = g.released ∧
        (g.await m d).debt = g.debt ∧ (g.await m d).doom = g.doom := by
  rw [await]
  split <;> exact ⟨rfl, rfl, rfl, rfl, rfl, rfl, rfl, rfl⟩

theorem mem_parents_await (hmd : m ≠ d) (y : ModuleId) :
    x ∈ ((g.await m d).fields y).parents ↔
      x ∈ (g.fields y).parents ∨ (g.fields d).order.isTurn ∧ y = d ∧ x = m := by
  by_cases ho : (g.fields d).order.isTurn
  · rw [await, if_pos ho]
    by_cases hy : y = d
    · subst hy
      rw [(sets_register ..).1, (sets_expect g m).2 y hmd.symm]
      simp [ho]
    · rw [(sets_register ..).2 y hy, (sets_expect g m).field (·.parents) rfl]
      simp [hy]
  · rw [await, if_neg ho]
    simp [ho]

/-- An open module that has neither run nor got a turn may wait for the root of a cycle, or for a
module that is open itself. -/
theorem Sound.await (h : g.Sound) (hm : (g.fields m).status = .evaluating)
    (ho : (g.fields m).order = .unset) (hstarts : g.starts m = 0) (hready : m ∉ g.ready)
    (he : (g.fields d).error = none) (hreleased : d ∉ g.released)
    (hroot : ∀ q, (g.fields d).root = some q → q = d) (hreach : ReflTransGen g.Requests m d) :
    (g.await m d).Sound ∧ g.Grows (g.await m d) := by
  rw [Graph.await]
  split
  · rename_i hturn
    have hset := sets_expect g m
    have hs := h.expect hm ho hready
    have hturn' : ((g.expect m).fields d).order.isTurn := by
      rwa [hset.field (·.order) rfl]
    refine ⟨hs.register rfl ?_ ?_ hstarts ?_ (fun q hq => hroot q ?_)
        (ReflTransGen.mono (grows_expect h hm).requests _ _ hreach),
          (grows_expect h hm).trans (grows_register hs (not_idle_of_turn hs hturn') _)⟩
    · rw [hset.field (·.status) rfl, hm]
    · rw [hset.field (·.order) rfl, ho]
    · rw [owes, hturn', hset.field (·.error) rfl, he, Option.isNone_none, Bool.and_self,
        Bool.true_and, Bool.not_eq_true']
      exact Bool.eq_false_iff.2 fun e => hreleased (List.contains_iff_mem.1 e)
    · rwa [hset.field (·.root) rfl] at hq
  · exact ⟨h, .of_fields rfl rfl rfl rfl⟩

end ModuleGraph.Graph

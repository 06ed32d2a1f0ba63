import ModuleGraph.Proofs.Evaluation.Changes

/-! # Opening modules and starting bodies

A module is visited for the first time, gets its turn, and has its body started once all that it
waits for is complete. Each of these steps keeps a graph sound. -/

namespace ModuleGraph.Graph

open Relation

variable {g g' : Graph} {m x d q : ModuleId}

/-! ## Opening a module -/

def opening (c : Cyclic) (visits : Nat) : Cyclic :=
  { c with
    status := .evaluating, visit := some visits, ancestor := some visits, pending := some 0 }

def enter (g : Graph) (m : ModuleId) : Graph :=
  { g.set m (opening (g.fields m) g.visits) with
    stack := m :: g.stack
    path := ⟨m, [], (g.fields m).requested, true⟩ :: g.path
    visits := g.visits + 1 }

theorem sets_enter (g : Graph) (m : ModuleId) :
    g.Sets (g.enter m) m (opening (g.fields m) g.visits) := sets_set g m _

theorem grows_enter (h : g.Sound) (hm : (g.fields m).status.IsIdle) : g.Grows (g.enter m) := by
  have hr := ((h.shaped m).idle hm).1.2.1
  refine (sets_enter g m).grows (fun _ he => he) (fun _ hl => hl) (fun _ _ ht => ht) rfl rfl
    (fun e => (e hr).elim)
    (fun _ hx => hx) fun hc => ?_
  rw [hc.1] at hm
  exact hm.elim

theorem waits_enter (h : g.Sound) (m x : ModuleId) : (g.enter m).waits x = g.waits x := by
  have hset := sets_enter g m
  have hweight : ∀ d, (g.enter m).weight x d = g.weight x d := fun d =>
    weight_congr (owes_congr (hset.field (·.order) rfl d) (hset.field (·.error) rfl d) Iff.rfl)
      (hset.field (·.parents) rfl d)
  refine waits_congr le_rfl (fun d _ => hweight d) fun d hd => ?_
  rw [hweight, weight_eq_zero]
  by_contra hne
  have hi : ¬(g.fields d).status.IsIdle := fun hi => hne ((h.shaped d).idle hi).1.2.2.2
  have := (h.shaped d).sized hi
  omega

theorem Sound.not_mem_parents (h : g.Sound) (hm : (g.fields m).status.IsIdle) (d : ModuleId) :
    m ∉ (g.fields d).parents := fun hd => (h.awaits d m hd).awake hm

theorem Sound.waits_eq_zero (h : g.Sound) (hm : (g.fields m).status.IsIdle) : g.waits m = 0 := by
  by_contra hne
  obtain ⟨d, -, hd⟩ := weight_pos_of_waits (Nat.pos_of_ne_zero hne)
  exact h.not_mem_parents hm d hd

theorem shaped_enter (h : g.Shaped m) (hm : (g.fields m).status.IsIdle) (hcyclic : g.cyclic m)
    (hsize : m.index < g.size) : (g.enter m).Shaped m := by
  obtain ⟨⟨he, hr, ho, hp⟩, hstarts⟩ := h.idle hm
  constructor <;> rw [(sets_enter g m).1]
  case idle => exact fun hi => hi.elim
  case opened => exact fun _ => ⟨he, hr, by simp [opening, ho]⟩
  case waiting => rintro ⟨⟩
  case complete => rintro ⟨⟩
  case unset => exact fun _ => hp
  case turn => exact fun k hk => by cases ho.symm.trans hk
  case unstarted => exact fun hturn => by simp [opening, ho, AsyncOrder.isTurn] at hturn
  case failed => exact fun hf => (hf he).elim
  case done => exact fun hd => by cases ho.symm.trans hd
  case sized => exact fun _ => hsize
  case once => exact fun _ => (hstarts hcyclic).trans_le (Nat.zero_le 1)
  case blamed => exact fun v hv => by cases he.symm.trans hv

/-- A module that is idle neither waits nor is waited for. -/
theorem awaits_enter (h : g.Sound) (hm : (g.fields m).status.IsIdle)
    (hx : x ∈ (g.fields d).parents) : (g.enter m).Awaits x d := by
  have hset := sets_enter g m
  have hxm : x ≠ m := by
    rintro rfl
    exact h.not_mem_parents hm d hx
  have hdm : d ≠ m := by
    rintro rfl
    rw [((h.shaped d).idle hm).1.2.2.2] at hx
    cases hx
  have ha := h.awaits d x hx
  exact SameStage.awaits (.of_fields (hset.2 x hxm)) (.of_fields (hset.2 d hdm)) ha
    (grows_enter h hm) id rfl fun hd =>
      List.mem_cons_of_mem _ (ha.opened ((List.mem_cons.1 hd).resolve_left hdm))

theorem Sound.enter (h : g.Sound) (hm : (g.fields m).status.IsIdle) (hcyclic : g.cyclic m)
    (hsize : m.index < g.size) (hdebt : g.debt = []) : (g.enter m).Sound := by
  have ho := ((h.shaped m).idle hm).1.2.2.1
  have hset := sets_enter g m
  have herror := hset.field (·.error) rfl
  have horder := hset.field (·.order) rfl
  have hroot := hset.field (·.root) rfl
  have hms : m ∉ g.stack := fun hs => by
    rw [← h.open_iff] at hs
    rw [hs] at hm
    exact hm
  have hgrows := grows_enter h hm
  obtain ⟨hmember, hsettled, hseparate⟩ := h.member_of_grows hgrows fun x q hx => by
    rwa [hroot] at hx
  refine ⟨List.nodup_cons.2 ⟨hms, h.nodup⟩, fun x => ?_, fun x => ?_, fun x y k hx hy => ?_,
    fun d x hx => ?_, fun x hx hdoom => ?_, hmember, hsettled, hseparate, fun x hx hxe => ?_,
    fun x hxo hxe hxp hxr hxl => ?_⟩
  · by_cases e : x = m
    · subst e
      rw [hset.1]
      exact iff_of_true rfl (List.mem_cons_self ..)
    · rw [hset.2 x e, h.open_iff]
      change x ∈ g.stack ↔ x ∈ m :: g.stack
      simp [e]
  · by_cases e : x = m
    · rw [e]
      exact shaped_enter (h.shaped m) hm hcyclic hsize
    · exact (h.shaped x).of_fields (hset.2 x e) hgrows id rfl le_rfl le_rfl
  · rw [horder] at hx hy
    exact h.distinct x y k hx hy
  · rw [hset.field (·.parents) rfl] at hx
    exact awaits_enter h hm hx
  · by_cases e : x = m
    · subst e
      refine ⟨0, by rw [hset.1]; rfl, ?_, fun _ => Nat.zero_le _⟩
      rw [waits_enter h, h.waits_eq_zero hm, show (g.enter x).debt = g.debt from rfl, hdebt]
      exact Nat.le_refl 0
    · rw [hset.2 x e] at hx
      refine (h.balanced x hx hdoom).congr (by rw [hset.2 x e])
        (congrArg (· + g.debt.count x) (waits_enter h m x)) ?_
      rw [RootFailed, RootFailed, hroot, Failed, Failed, herror]
      exact id
  · rw [herror] at hxe
    obtain ⟨hs, hp', hst⟩ := h.ready x hx hxe
    have e : x ≠ m := by
      rintro rfl
      rw [hs] at hm
      exact hm
    rw [hset.2 x e]
    exact ⟨hs, hp', hst⟩
  · rw [horder] at hxo
    rw [herror] at hxe
    have e : x ≠ m := by
      rintro rfl
      rw [ho] at hxo
      cases hxo
    rw [hset.2 x e] at hxp ⊢
    exact h.running x hxo hxe hxp hxr hxl

/-! ## Starting a body -/

def note (g : Graph) (e : Entry) : Graph := { g with journal := g.journal ++ [e] }

theorem starts_note_started (g : Graph) (m x : ModuleId) (b : Machine Unit Unit) :
    (g.note (.started m b)).starts x = g.starts x + if x = m then 1 else 0 := by
  rw [starts, note, Journal.starts_append, starts]
  congr 1
  by_cases e : x = m
  · subst e
    simp [Journal.starts, Entry.isStart]
  · simp [Journal.starts, Entry.isStart, e, Ne.symm e]

theorem mem_note {e e' : Entry} (h : e ∈ g.journal) : e ∈ (g.note e').journal :=
  List.mem_append_left _ h

def takeTurn (g : Graph) (m : ModuleId) : Graph :=
  { g.set m { g.fields m with order := .turn g.nextTurn } with nextTurn := g.nextTurn + 1 }

theorem sets_takeTurn (g : Graph) (m : ModuleId) :
    g.Sets (g.takeTurn m) m { g.fields m with order := .turn g.nextTurn } := sets_set g m _

theorem grows_takeTurn (h : g.Shaped m) (hm : (g.fields m).status = .evaluating) :
    g.Grows (g.takeTurn m) := by
  refine (sets_takeTurn g m).grows (fun _ he => he) (fun _ hl => hl) (fun _ _ ht => ht) rfl rfl
    (fun e => (e (h.opened hm).2.1).elim) (fun _ hx => hx) fun hc => ?_
  rw [hc.1] at hm
  cases hm

/-- A module without a turn is not waited for, so it owes its end to none. -/
theorem weight_takeTurn (h : g.Shaped m) (ho : (g.fields m).order = .unset) (x d : ModuleId) :
    (g.takeTurn m).weight x d = g.weight x d := by
  have hset := sets_takeTurn g m
  have hparents := hset.field (·.parents) rfl
  by_cases e : d = m
  · rw [weight_eq_zero (by rw [e, hparents, h.unset ho]), weight_eq_zero (by rw [e, h.unset ho])]
  · exact weight_congr (owes_congr (by rw [hset.2 d e]) (by rw [hset.2 d e]) Iff.rfl) (hparents d)

theorem shaped_takeTurn (h : g.Shaped m) (hm : (g.fields m).status = .evaluating)
    (hstarts : g.starts m = 0) : (g.takeTurn m).Shaped m := by
  obtain ⟨he, hroot, -⟩ := h.opened hm
  constructor <;> rw [(sets_takeTurn g m).1]
  case idle =>
    intro hi
    rw [hm] at hi
    exact hi.elim
  case opened => exact fun _ => ⟨he, hroot, fun e => nomatch e⟩
  case waiting => exact fun hs => nomatch hm.symm.trans hs
  case complete => exact fun hs => nomatch hm.symm.trans hs
  case unset => exact fun hu => nomatch hu
  case turn =>
    intro k hk
    cases hk
    exact Nat.lt_succ_self _
  case unstarted => exact fun _ _ _ => hstarts
  case failed => exact fun hf => (hf he).elim
  case done => exact fun hd => nomatch hd
  case sized =>
    refine fun _ => h.sized ?_
    rw [hm]
    exact id
  case once => exact fun _ => hstarts.trans_le (Nat.zero_le 1)
  case blamed => exact fun v hv => nomatch he.symm.trans hv

/-- An open module that waits for something, or has top-level await, gets its turn. -/
theorem Sound.takeTurn (h : g.Sound) (hm : (g.fields m).status = .evaluating)
    (ho : (g.fields m).order = .unset) (hstarts : g.starts m = 0) (hready : m ∉ g.ready)
    (hp0 : (g.fields m).pending = some 0 → (g.fields m).hasAwait) : (g.takeTurn m).Sound := by
  have hset := sets_takeTurn g m
  have herror := hset.field (·.error) rfl
  have hpending := hset.field (·.pending) rfl
  have hrootf := hset.field (·.root) rfl
  have hgrows := grows_takeTurn (h.shaped m) hm
  refine h.change hset hgrows rfl rfl rfl (Nat.le_succ _) (fun _ hx => hx) (fun _ _ => rfl) rfl
    Iff.rfl (shaped_takeTurn (h.shaped m) hm hstarts) ?hdistinct ?hawaits ?hbalanced ?hready
    ?hrunning
  case hdistinct =>
    intro x k hx hk
    cases hk
    exact fun e => Nat.lt_irrefl _ ((h.shaped x).turn _ e)
  case hawaits =>
    intro d x hx e
    rw [hset.field (·.parents) rfl] at hx
    have ha := h.awaits d x hx
    have hdm : d ≠ m := by
      rintro rfl
      rw [(h.shaped d).unset ho] at hx
      cases hx
    obtain rfl : x = m := e.resolve_right hdm
    refine ⟨?_, fun k k' hk hk' => ?_, ?_, fun hs => (hs hstarts).elim, ha.opened, ?_,
      ReflTransGen.mono hgrows.requests _ _ ha.reach⟩
    · rw [hset.field (·.status) rfl]
      exact ha.awake
    · rw [hset.1] at hk'
      rw [hset.2 d hdm] at hk
      cases hk'
      exact (h.shaped d).turn k hk
    · rw [Failed, Failed, herror, herror]
      exact ha.failed
    · rw [hrootf, hrootf]
      exact ha.root
  case hbalanced =>
    intro x hx hd
    rw [hset.field (·.status) rfl] at hx
    refine (h.balanced x hx hd).congr (hpending x) (congrArg (· + g.debt.count x)
      (waits_of_weight rfl (weight_takeTurn (h.shaped m) ho x))) ?_
    rw [RootFailed, RootFailed, hrootf, Failed, Failed, herror]
    exact id
  case hready =>
    intro x hx hxe
    rw [herror] at hxe
    have hxm : x ≠ m := fun e => hready (e ▸ hx)
    rw [hset.2 x hxm]
    exact h.ready x hx hxe
  case hrunning =>
    intro x hxo hxe hxp hxr hxl
    by_cases e : x = m
    · subst e
      rw [hpending] at hxp
      rw [hset.field (·.hasAwait) rfl]
      exact ⟨hstarts.trans_le (Nat.zero_le 1), hp0 hxp⟩
    · rw [hset.2 x e] at hxo hxe hxp ⊢
      exact h.running x hxo hxe hxp hxr hxl

/-- A module is taken off the list of those that are ready. -/
theorem Sound.pick (h : g.Sound) {ready : List ModuleId}
    (hready : ∀ x, x ∈ ready ↔ x ∈ g.ready ∧ x ≠ m)
    (hm : (g.fields m).error = none → (g.fields m).hasAwait ∨ m ∈ g.released) :
    ({ g with ready } : Graph).Sound := by
  refine h.beside (fun _ _ _ _ hx => .inr hx) h.balanced (fun x hx _ => ((hready x).1 hx).1)
    fun x ho he hp hr hl => ?_
  by_cases hx : x ∈ g.ready
  · obtain rfl : x = m := by
      by_contra e
      exact hr ((hready x).2 ⟨hx, e⟩)
    exact ⟨(h.ready x hx he).2.2.trans_le (Nat.zero_le 1), (hm he).resolve_right hl⟩
  · exact h.running x ho he hp hx hl

/-- The body of a module may be started: everything that the module waits for is complete. -/
structure Startable (g : Graph) (m : ModuleId) : Prop where
  awake : ¬(g.fields m).status.IsIdle
  starts : g.starts m = 0
  awaited : ∀ d, m ∈ (g.fields d).parents → g.Complete d
  turn : (g.fields m).order.isTurn → (g.fields m).error = none →
    (g.fields m).pending = some 0 ∧ ((g.fields m).hasAwait ∨ m ∈ g.released)
  ready : m ∉ g.ready

theorem Startable.undisturbed (hm : g.Startable m) (hs : g.Sound) (h : g.Undisturbed g') :
    g'.Startable m := by
  obtain ⟨⟨a, c, ha⟩, hstarts⟩ := h.awake m hm.awake
  refine ⟨(h.awake_iff m).not.2 hm.awake, hstarts.trans hm.starts, fun d hd => ?_, ?_, ?_⟩
  · rw [(h.progress hs d).2.2.2] at hd
    exact (h.complete_iff hs d).2 (hm.awaited d hd)
  · rw [ha, h.released]
    exact hm.turn
  · rw [h.ready]
    exact hm.ready

theorem Sound.begin (h : g.Sound) (b : Machine Unit Unit) (hm : g.Startable m) :
    (g.note (.started m b)).Sound := by
  obtain ⟨hm, hstarts, hc, hturn, hready⟩ := hm
  have hst := starts_note_started g m (b := b)
  have hother : ∀ x, x ≠ m → (g.note (.started m b)).starts x = g.starts x :=
    fun x hx => by rw [hst, if_neg hx, Nat.add_zero]
  have hself : (g.note (.started m b)).starts m = 1 := by rw [hst, if_pos rfl, hstarts]
  have hset : g.Sets (g.note (.started m b)) m (g.fields m) := ⟨rfl, fun _ _ => rfl⟩
  have hgrows : g.Grows (g.note (.started m b)) := by
    refine hset.grows (fun _ he => mem_note he) (fun _ hl => hl) (fun _ _ ht => ht) rfl rfl
      (fun hr => ?_)
      (fun _ hx => hx) fun hc => hc
    refine ⟨rfl, id, ?_⟩
    rcases Status.cases_awake hm with hs | hs | hs
    · exact (hr ((h.shaped m).opened hs).2.1).elim
    · exact .inl hs
    · exact .inr hs
  have hx := h.shaped m
  refine h.change hset hgrows rfl rfl rfl le_rfl (fun _ hx => hx) hother rfl Iff.rfl ?_
    (fun x k hx hk hk' => hx (h.distinct x m k hk' hk)) (fun d x hxd e => ?_)
    (fun x hs hd => h.balanced x hs hd) (fun x hxr hxe => ?_) fun x ho he hp hxr hxl => ?_
  · refine ⟨fun hi => (hm hi).elim, hx.opened, hx.waiting, fun hs he => ?_, hx.unset, hx.turn,
      fun ho he hp => ?_, hx.failed, hx.done, hx.sized, fun _ => hself.le,
      fun v hv => (hx.blamed v hv).grows hgrows⟩
    · have := (hx.complete hs he).2.2.1
      omega
    · exact (hp (hturn ho he).1).elim
  · have ha := h.awaits d x hxd
    refine ⟨ha.awake, ha.turn, ha.failed, fun hs => ?_, ha.opened, ha.root,
      ReflTransGen.mono hgrows.requests _ _ ha.reach⟩
    by_cases ex : x = m
    · subst ex
      exact hc d hxd
    · rw [hother x ex] at hs
      exact ha.started hs
  · have hxm : x ≠ m := fun e => hready (e ▸ hxr)
    rw [hother x hxm]
    exact h.ready x hxr hxe
  · by_cases ex : x = m
    · subst ex
      exact ⟨hself.le, ((hturn ho he).2).resolve_right hxl⟩
    · rw [hother x ex]
      exact h.running x ho he hp hxr hxl

end ModuleGraph.Graph

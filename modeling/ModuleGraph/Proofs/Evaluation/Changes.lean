import ModuleGraph.Proofs.Evaluation.Graph

/-! # Changes of a graph

Each step of evaluation changes the fields of one module, or of the modules of one cycle, or makes
an entry in the journal. Whatever it changes, requests stay, cycles that were closed stay closed,
and what is complete stays complete. -/

namespace ModuleGraph.Graph

open Relation

variable {g g' g'' : Graph} {m n x y d p q : ModuleId} {r : String}

/-! ## What every step keeps -/

/-- What every step keeps: requests, the cycles that were closed and what is complete. -/
structure Grows (g g' : Graph) : Prop where
  noted : ∀ e ∈ g.journal, e ∈ g'.journal
  leaf : ∀ x, g.leaf x → g'.leaf x
  threw : ∀ x e, g.threw x e → g'.threw x e
  requests : ∀ x y, g.Requests x y → g'.Requests x y
  root : ∀ x q, (g.fields x).root = some q → (g'.fields x).root = some q
  visit : ∀ x, (g.fields x).root ≠ none → g'.visitOf x = g.visitOf x
  unset : ∀ x, (g.fields x).root ≠ none → (g.fields x).order = .unset →
    (g'.fields x).order = .unset
  requested : ∀ x, (g.fields x).root ≠ none → (g'.fields x).requested = (g.fields x).requested
  finished : ∀ x, (g.fields x).root ≠ none →
    (g.fields x).status = .evaluatingAsync ∨ (g.fields x).status = .evaluated →
      (g'.fields x).status = .evaluatingAsync ∨ (g'.fields x).status = .evaluated
  parents : ∀ d, ∀ x ∈ (g.fields d).parents, x ∈ (g'.fields d).parents
  complete : ∀ x, g.Complete x → g'.Complete x

theorem Grows.of_fields (hf : g'.fields = g.fields) (hl : g'.leaf = g.leaf)
    (ht : g'.threw = g.threw) (hn : g'.journal = g.journal) : g.Grows g' := by
  refine ⟨fun _ h => by rwa [hn], fun _ h => by rwa [hl], fun _ _ h => by rwa [ht], fun x y h => ?_,
    fun _ _ h => by rwa [hf],
    fun _ _ => by rw [visitOf, hf, visitOf], fun _ _ h => by rwa [hf], fun _ _ => by rw [hf],
    fun _ _ h => by rwa [hf], fun _ _ h => by rwa [hf], fun _ h => by rwa [Complete, hf]⟩
  rwa [Requests, hf, hn]

theorem Grows.trans (h : g.Grows g') (h' : g'.Grows g'') : g.Grows g'' := by
  have hroot : ∀ x, (g.fields x).root ≠ none → (g'.fields x).root ≠ none := fun x hx => by
    obtain ⟨q, hq⟩ := Option.ne_none_iff_exists'.1 hx
    rw [h.root x q hq]
    exact fun e => nomatch e
  exact
    { noted := fun e he => h'.noted e (h.noted e he)
      leaf := fun x hx => h'.leaf x (h.leaf x hx)
      threw := fun x e hx => h'.threw x e (h.threw x e hx)
      requests := fun x y hx => h'.requests x y (h.requests x y hx)
      root := fun x q hx => h'.root x q (h.root x q hx)
      visit := fun x hx => (h'.visit x (hroot x hx)).trans (h.visit x hx)
      unset := fun x hx ho => h'.unset x (hroot x hx) (h.unset x hx ho)
      requested := fun x hx => (h'.requested x (hroot x hx)).trans (h.requested x hx)
      finished := fun x hx hs => h'.finished x (hroot x hx) (h.finished x hx hs)
      parents := fun d x hx => h'.parents d x (h.parents d x hx)
      complete := fun x hx => h'.complete x (h.complete x hx) }

theorem Blames.grows {e : Value} (h : g.Blames x e) (he : g.Grows g') : g'.Blames x e := by
  obtain ⟨y, hy, ht⟩ := h
  exact ⟨y, ReflTransGen.mono he.requests _ _ hy, he.threw y e ht⟩

/-- Whoever requests a module may blame what that module blames. -/
theorem Blames.of_reach {e : Value} (h : g.Blames y e) (hx : ReflTransGen g.Requests x y) :
    g.Blames x e := by
  obtain ⟨z, hz, ht⟩ := h
  exact ⟨z, hx.trans hz, ht⟩

theorem Member.grows (h : g.Member q x) (hx : (g.fields x).root = some q) (he : g.Grows g') :
    g'.Member q x where
  root := he.root q q h.root
  finished := he.finished q (by rw [h.root]; simp) h.finished
  up := ReflTransGen.mono he.requests _ _ h.up
  down := ReflTransGen.mono he.requests _ _ h.down
  hung e := by
    obtain ⟨y, hy, hlt, hp⟩ := h.hung e
    refine ⟨y, he.root y q hy, ?_, fun ho => he.parents x y (hp fun hu => ho ?_)⟩
    · rwa [he.visit y (by rw [hy]; simp), he.visit x (by rw [hx]; simp)]
    · exact he.unset x (by rw [hx]; simp) hu

theorem Settled.grows (h : g.Settled q x r) (he : g.Grows g') : g'.Settled q x r := by
  obtain ⟨n, hn, hleaf | hin | ⟨p, hp, hc | hw⟩⟩ := h
  · exact ⟨n, he.noted _ hn, .inl (he.leaf n hleaf)⟩
  · exact ⟨n, he.noted _ hn, .inr (.inl (he.root n q hin))⟩
  · exact ⟨n, he.noted _ hn, .inr (.inr ⟨p, he.root n p hp, .inl (he.complete p hc)⟩)⟩
  · exact ⟨n, he.noted _ hn, .inr (.inr ⟨p, he.root n p hp, .inr (he.parents p x hw)⟩)⟩

/-- What a module of a closed cycle leads to was known when the cycle was closed, and belongs to a
closed cycle. -/
theorem Sound.leads_of_grows (h : g.Sound) (he : g.Grows g') (hst : g'.journal.Stable)
    (hx : (g.fields x).root ≠ none) (hl : g'.Leads x y) :
    g.Leads x y ∧ (g.fields y).root ≠ none := by
  obtain ⟨⟨r, hr, hy⟩, hleaf⟩ := hl
  have hleaf' : ¬g.leaf y := fun hl => hleaf (he.leaf y hl)
  rw [he.requested x hx] at hr
  obtain ⟨q, hq⟩ := Option.ne_none_iff_exists'.1 hx
  obtain ⟨n, hn, hsettled⟩ := h.settled x q hq r hr
  obtain rfl := hst x r n y (he.noted _ hn) hy
  refine ⟨⟨⟨r, hr, hn⟩, hleaf'⟩, ?_⟩
  obtain hl | hin | ⟨p, hp, -⟩ := hsettled
  · exact (hleaf' hl).elim
  · rw [hin]
    exact fun e => nomatch e
  · rw [hp]
    exact fun e => nomatch e

theorem Sound.reaches_of_grows (h : g.Sound) (he : g.Grows g') (hst : g'.journal.Stable)
    (hx : (g.fields x).root ≠ none) (hl : ReflTransGen g'.Leads x y) :
    ReflTransGen g.Leads x y ∧ (g.fields y).root ≠ none := by
  induction hl with
  | refl => exact ⟨.refl, hx⟩
  | tail _ hl ih =>
    obtain ⟨hyz, hz⟩ := h.leads_of_grows he hst ih.2 hl
    exact ⟨ih.1.tail hyz, hz⟩

theorem Sound.separate_of_grows (h : g.Sound) (he : g.Grows g')
    (hroot : ∀ x y p q, (g.fields x).root = none → (g.fields y).root = none →
      (g'.fields x).root = some p → (g'.fields y).root = some q → p = q)
    (hst : g'.journal.Stable) (x y p q : ModuleId) (hx : (g'.fields x).root = some p)
    (hy : (g'.fields y).root = some q) (hxy : ReflTransGen g'.Leads x y)
    (hyx : ReflTransGen g'.Leads y x) : p = q := by
  have hst' : g.journal.Stable := fun m r n n' hn hn' =>
    hst m r n n' (he.noted _ hn) (he.noted _ hn')
  -- A cycle that was closed before does not lead to one that is closed now.
  by_cases hx' : (g.fields x).root = none
  · by_cases hy' : (g.fields y).root = none
    · exact hroot x y p q hx' hy' hx hy
    · exact ((h.reaches_of_grows he hst hy' hyx).2 hx').elim
  · obtain ⟨p', hp'⟩ := Option.ne_none_iff_exists'.1 hx'
    obtain ⟨hxy', hy'⟩ := h.reaches_of_grows he hst hx' hxy
    obtain ⟨q', hq'⟩ := Option.ne_none_iff_exists'.1 hy'
    obtain rfl := Option.some.inj (hx.symm.trans (he.root x p' hp'))
    obtain rfl := Option.some.inj (hy.symm.trans (he.root y q' hq'))
    exact h.separate hst' x y p q hp' hq' hxy' (h.reaches_of_grows he hst hy' hyx).1

theorem Sound.member_of_grows (h : g.Sound) (he : g.Grows g')
    (hroot : ∀ x q, (g'.fields x).root = some q → (g.fields x).root = some q) :
    (∀ x q, (g'.fields x).root = some q → g'.Member q x) ∧
      (∀ x q, (g'.fields x).root = some q → ∀ r ∈ (g'.fields x).requested, g'.Settled q x r) ∧
      (g'.journal.Stable → ∀ x y p q, (g'.fields x).root = some p → (g'.fields y).root = some q →
        ReflTransGen g'.Leads x y → ReflTransGen g'.Leads y x → p = q) := by
  refine ⟨fun x q hx => ?_, fun x q hx r hr => ?_,
    h.separate_of_grows he fun x _ p _ hx _ hp _ => ?_⟩
  · exact (h.member x q (hroot x q hx)).grows (hroot x q hx) he
  · have hx' := hroot x q hx
    rw [he.requested x (by rw [hx']; simp)] at hr
    exact (h.settled x q hx' r hr).grows he
  · rw [hroot x p hp] at hx
    cases hx

/-! ## Modules that are as far as before -/

structure SameStage (g g' : Graph) (x : ModuleId) : Prop where
  status : (g'.fields x).status = (g.fields x).status
  order : (g'.fields x).order = (g.fields x).order
  error : (g'.fields x).error = (g.fields x).error
  root : (g'.fields x).root = (g.fields x).root

namespace SameStage

theorem of_fields (h : g'.fields x = g.fields x) : g.SameStage g' x :=
  ⟨by rw [h], by rw [h], by rw [h], by rw [h]⟩

theorem failed_iff (h : g.SameStage g' x) : g'.Failed x ↔ g.Failed x := by
  rw [Failed, Failed, h.error]

theorem complete_iff (h : g.SameStage g' x) : g'.Complete x ↔ g.Complete x := by
  rw [Complete, Complete, h.status, h.error]

theorem rootFailed_iff (h : ∀ x, g.SameStage g' x) : g'.RootFailed x ↔ g.RootFailed x := by
  rw [RootFailed, RootFailed, (h x).root, (h _).failed_iff]

/-- Beside its stage, the parents of a module and what it counts decide its shape. -/
theorem shaped (h : g.SameStage g' x) (hx : g.Shaped x) (hgrows : g.Grows g')
    (hcyclic : (g.fields x).status.IsIdle → g'.cyclic x → g.cyclic x)
    (hstarts : g'.starts x = g.starts x) (hturns : g.nextTurn ≤ g'.nextTurn)
    (hsize : g.size ≤ g'.size) (hunset : (g.fields x).order = .unset → (g'.fields x).parents = [])
    (hunstarted : (g.fields x).order.isTurn → (g.fields x).error = none →
      (g'.fields x).pending ≠ some 0 → g.starts x = 0) : g'.Shaped x where
  idle hi := by
    rw [h.status] at hi
    obtain ⟨⟨he, hr, ho, -⟩, hs⟩ := hx.idle hi
    exact ⟨⟨h.error.trans he, h.root.trans hr, h.order.trans ho, hunset ho⟩,
      fun hc => hstarts.trans (hs (hcyclic hi hc))⟩
  opened hs := by
    rw [h.status] at hs
    rw [h.error, h.root, h.order]
    exact hx.opened hs
  waiting hs := by
    rw [h.status] at hs
    rw [h.error, h.root, h.order]
    exact hx.waiting hs
  complete hs he := by
    rw [h.status] at hs
    rw [h.error] at he
    obtain ⟨hr, ho, hst, hend⟩ := hx.complete hs he
    rw [h.root, h.order]
    exact ⟨hr, ho, hstarts.trans hst, hgrows.noted _ hend⟩
  unset ho := hunset (h.order.symm.trans ho)
  turn k hk := (hx.turn k (h.order.symm.trans hk)).trans_le hturns
  unstarted ho he hp := by
    rw [h.order] at ho
    rw [h.error] at he
    exact hstarts.trans (hunstarted ho he hp)
  failed hf hr := by
    rw [h.error] at hf
    rw [h.root] at hr
    exact h.order.trans (hx.failed hf hr)
  done ho := by
    rw [h.root]
    exact hx.done (h.order.symm.trans ho)
  sized hi := by
    rw [h.status] at hi
    exact (hx.sized hi).trans_le hsize
  once hi := by
    rw [h.status] at hi
    exact hstarts.trans_le (hx.once hi)
  blamed e he := by
    rw [h.error] at he
    exact (hx.blamed e he).grows hgrows

theorem awaits (hx : g.SameStage g' x) (hd : g.SameStage g' d) (h : g.Awaits x d)
    (hgrows : g.Grows g') (hdoom : x ∈ g.doom → x ∈ g'.doom) (hstarts : g'.starts x = g.starts x)
    (hopened : d ∈ g'.stack → x ∈ g'.stack) : g'.Awaits x d where
  awake := by
    rw [hx.status]
    exact h.awake
  turn := by
    rw [hd.order, hx.order]
    exact h.turn
  failed hf := (h.failed (hd.failed_iff.1 hf)).imp hx.failed_iff.2 hdoom
  started hs := by
    rw [hstarts] at hs
    exact hd.complete_iff.2 (h.started hs)
  opened := hopened
  root := by
    rw [hd.root, hx.root]
    exact h.root
  reach := ReflTransGen.mono hgrows.requests _ _ h.reach

end SameStage

theorem Shaped.of_fields (hx : g.Shaped x) (h : g'.fields x = g.fields x) (hgrows : g.Grows g')
    (hcyclic : g'.cyclic x → g.cyclic x) (hstarts : g'.starts x = g.starts x)
    (hturns : g.nextTurn ≤ g'.nextTurn) (hsize : g.size ≤ g'.size) : g'.Shaped x := by
  refine (SameStage.of_fields h).shaped hx hgrows (fun _ => hcyclic) hstarts hturns hsize
    (fun ho => ?_) fun ho he hp => ?_
  · rw [h]
    exact hx.unset ho
  · rw [h] at hp
    exact hx.unstarted ho he hp

theorem waits_of_weight (hs : g'.size = g.size) (h : ∀ d, g'.weight x d = g.weight x d) :
    g'.waits x = g.waits x := by
  rw [waits, waits, hs]
  exact Finset.sum_congr rfl fun i _ => h ⟨i⟩

/-- A module stays balanced if what it counts changes as much as what it waits for. -/
theorem Balanced.shift {k k' : Nat} (h : g.Balanced x) (hk : (g.fields x).pending = some k)
    (hk' : (g'.fields x).pending = some k')
    (hsum : k' + (g.waits x + g.debt.count x) = k + (g'.waits x + g'.debt.count x))
    (hf : g.RootFailed x → g'.RootFailed x) : g'.Balanced x := by
  obtain ⟨l, hl, hle, hge⟩ := h
  obtain rfl : k = l := Option.some.inj (hk.symm.trans hl)
  refine ⟨k', hk', by omega, fun hf' => ?_⟩
  have := hge fun e => hf' (hf e)
  omega

/-- Nothing is balanced differently when the waits and the debts together and the failures are the
same. -/
theorem Balanced.congr (h : g.Balanced x) (hp : (g'.fields x).pending = (g.fields x).pending)
    (hsum : g'.waits x + g'.debt.count x = g.waits x + g.debt.count x)
    (hf : g.RootFailed x → g'.RootFailed x) : g'.Balanced x := by
  obtain ⟨k, hk, -⟩ := id h
  exact h.shift hk (hp.trans hk) (by omega) hf

/-! ## Changes beside the fields -/

theorem Sound.beside (h : g.Sound) {path : List Frame} {visits : Nat}
    {ready released debt doom : List ModuleId}
    (hdoom : ∀ d, ∀ x ∈ (g.fields d).parents, g.Failed d → x ∈ g.doom → g.Failed x ∨ x ∈ doom)
    (hbalanced : ∀ x, (g.fields x).status = .evaluating ∨ (g.fields x).status = .evaluatingAsync →
      x ∉ doom → ({ g with path, visits, ready, released, debt, doom } : Graph).Balanced x)
    (hready : ∀ x ∈ ready, (g.fields x).error = none → x ∈ g.ready)
    (hrunning : ∀ x, (g.fields x).order.isTurn → (g.fields x).error = none →
      (g.fields x).pending = some 0 → x ∉ ready → x ∉ released →
        g.starts x ≤ 1 ∧ (g.fields x).hasAwait) :
    ({ g with path, visits, ready, released, debt, doom } : Graph).Sound := by
  have hgrows : g.Grows { g with path, visits, ready, released, debt, doom } :=
    .of_fields rfl rfl rfl rfl
  obtain ⟨hmember, hsettled, hseparate⟩ := h.member_of_grows hgrows fun _ _ hx => hx
  exact
    { nodup := h.nodup
      open_iff := h.open_iff
      shaped := fun x => (h.shaped x).of_fields rfl hgrows id rfl le_rfl le_rfl
      distinct := h.distinct
      awaits := fun d x hx =>
        have ha := h.awaits d x hx
        { awake := ha.awake
          turn := ha.turn
          failed := fun hf => (ha.failed hf).elim .inl (hdoom d x hx hf)
          started := ha.started
          opened := ha.opened
          root := ha.root
          reach := ha.reach }
      balanced := hbalanced
      member := hmember
      settled := hsettled
      separate := hseparate
      ready := fun x hx he => h.ready x (hready x hx he) he
      running := hrunning }

/-! ## Changes that evaluation does not notice -/

/-- Modules that are idle stay so, and of all others only the earliest time that they reach and the
capability may change. The journal grows, but not by starts of modules that are not idle. -/
structure Undisturbed (g g' : Graph) : Prop where
  noted : ∀ e ∈ g.journal, e ∈ g'.journal
  leaf : ∀ x, g.leaf x → g'.leaf x
  threw : ∀ x e, g.threw x e → g'.threw x e
  requested : ∀ x, ∀ r ∈ (g.fields x).requested, r ∈ (g'.fields x).requested
  idle : ∀ x, (g.fields x).status.IsIdle → (g'.fields x).status.IsIdle ∧ (g'.fields x).IsFresh ∧
    (g'.cyclic x → g'.starts x = 0)
  awake : ∀ x, ¬(g.fields x).status.IsIdle →
    (∃ a c, g'.fields x = { g.fields x with ancestor := a, capability := c }) ∧
      g'.starts x = g.starts x
  size : g.size ≤ g'.size
  nextTurn : g'.nextTurn = g.nextTurn
  stack : g'.stack = g.stack
  ready : g'.ready = g.ready
  released : g'.released = g.released
  debt : g'.debt = g.debt
  doom : g'.doom = g.doom

namespace Undisturbed

theorem awake_iff (h : g.Undisturbed g') (x : ModuleId) :
    (g'.fields x).status.IsIdle ↔ (g.fields x).status.IsIdle := by
  by_cases hi : (g.fields x).status.IsIdle
  · exact iff_of_true (h.idle x hi).1 hi
  · obtain ⟨⟨a, c, ha⟩, -⟩ := h.awake x hi
    rw [ha]

theorem status_iff (h : g.Undisturbed g') (x : ModuleId) {st : Status} (hst : ¬st.IsIdle) :
    (g'.fields x).status = st ↔ (g.fields x).status = st := by
  by_cases hi : (g.fields x).status.IsIdle
  · constructor
    · rintro rfl
      exact (hst (h.idle x hi).1).elim
    · rintro rfl
      exact (hst hi).elim
  · obtain ⟨⟨a, c, ha⟩, -⟩ := h.awake x hi
    rw [ha]

/-- The fields that tell how far the evaluation of a module is. -/
theorem progress (hs : g.Sound) (h : g.Undisturbed g') (x : ModuleId) :
    (g'.fields x).error = (g.fields x).error ∧ (g'.fields x).root = (g.fields x).root ∧
      (g'.fields x).order = (g.fields x).order ∧ (g'.fields x).parents = (g.fields x).parents := by
  by_cases hi : (g.fields x).status.IsIdle
  · obtain ⟨he, hr, ho, hp⟩ := ((hs.shaped x).idle hi).1
    obtain ⟨he', hr', ho', hp'⟩ := (h.idle x hi).2.1
    rw [he, hr, ho, hp, he', hr', ho', hp']
    exact ⟨rfl, rfl, rfl, rfl⟩
  · obtain ⟨⟨a, c, ha⟩, -⟩ := h.awake x hi
    rw [ha]
    exact ⟨rfl, rfl, rfl, rfl⟩

theorem complete_iff (hs : g.Sound) (h : g.Undisturbed g') (x : ModuleId) :
    g'.Complete x ↔ g.Complete x := by
  rw [Complete, Complete, h.status_iff x (by simp [Status.IsIdle]), (progress hs h x).1]

theorem failed_iff (hs : g.Sound) (h : g.Undisturbed g') (x : ModuleId) :
    g'.Failed x ↔ g.Failed x := by
  rw [Failed, Failed, (progress hs h x).1]

theorem rootFailed_iff (hs : g.Sound) (h : g.Undisturbed g') (x : ModuleId) :
    g'.RootFailed x ↔ g.RootFailed x := by
  rw [RootFailed, RootFailed, failed_iff hs h, (progress hs h x).2.1]

theorem weight_eq (hs : g.Sound) (h : g.Undisturbed g') (x d : ModuleId) :
    g'.weight x d = g.weight x d := by
  obtain ⟨he, -, ho, hp⟩ := progress hs h d
  by_cases hi : (g.fields d).status.IsIdle
  · rw [weight_eq_zero ((hs.shaped d).idle hi).1.2.2.2,
      weight_eq_zero (hp.trans ((hs.shaped d).idle hi).1.2.2.2)]
  · obtain ⟨⟨a, c, ha⟩, -⟩ := h.awake d hi
    have howes : g'.owes d = g.owes d := by simp only [owes, ha, h.released]
    rw [weight, weight, howes, hp]

theorem waits_eq (hs : g.Sound) (h : g.Undisturbed g') (x : ModuleId) : g'.waits x = g.waits x := by
  refine waits_congr h.size (fun d _ => weight_eq hs h x d) fun d hd => ?_
  rw [weight_eq hs h, weight_eq_zero]
  by_contra hp
  have hi : ¬(g.fields d).status.IsIdle := fun hi => hp ((hs.shaped d).idle hi).1.2.2.2
  have := (hs.shaped d).sized hi
  omega

theorem grows (hs : g.Sound) (h : g.Undisturbed g') : g.Grows g' where
  noted := h.noted
  leaf := h.leaf
  threw := h.threw
  requests x y := by
    rintro ⟨r, hr, hn⟩
    exact ⟨r, h.requested x r hr, h.noted _ hn⟩
  root x q hx := by rw [(progress hs h x).2.1, hx]
  visit x hx := by
    obtain ⟨⟨a, c, ha⟩, -⟩ := h.awake x ((hs.shaped x).not_idle_of_root hx)
    rw [visitOf, ha, visitOf]
  unset x _ ho := by rw [(progress hs h x).2.2.1, ho]
  requested x hx := by
    obtain ⟨⟨a, c, ha⟩, -⟩ := h.awake x ((hs.shaped x).not_idle_of_root hx)
    rw [ha]
  finished x _ hx := by
    rwa [h.status_iff x (by simp [Status.IsIdle]), h.status_iff x (by simp [Status.IsIdle])]
  parents d x hx := by rwa [(progress hs h d).2.2.2]
  complete x hx := (complete_iff hs h x).2 hx

theorem shaped (hs : g.Sound) (h : g.Undisturbed g') (x : ModuleId) : g'.Shaped x := by
  by_cases hi : (g.fields x).status.IsIdle
  · obtain ⟨hi', hf, hstarts⟩ := h.idle x hi
    obtain ⟨he, hr, ho, hp⟩ := hf
    refine ⟨fun _ => ⟨⟨he, hr, ho, hp⟩, hstarts⟩, fun e => ?_, fun e => ?_, fun e => ?_,
      fun _ => hp, fun k e => ?_, fun e => ?_, fun e => (e he).elim, fun e => ?_,
      fun e => (e hi').elim, fun e => (e hi').elim, fun e h => nomatch he.symm.trans h⟩
    · rw [e] at hi'
      exact hi'.elim
    · rw [e] at hi'
      exact hi'.elim
    · rw [e] at hi'
      exact hi'.elim
    · rw [ho] at e
      cases e
    · rw [ho] at e
      cases e
    · rw [ho] at e
      cases e
  · obtain ⟨⟨a, c, ha⟩, hstarts⟩ := h.awake x hi
    have hx := hs.shaped x
    have hstage : g.SameStage g' x := ⟨by rw [ha], by rw [ha], by rw [ha], by rw [ha]⟩
    refine hstage.shaped hx (h.grows hs) (fun e => (hi e).elim) hstarts h.nextTurn.ge h.size
      ?_ ?_ <;> rw [ha]
    · exact hx.unset
    · exact hx.unstarted

theorem starts_eq (h : g.Undisturbed g') (hx : ¬(g.fields x).status.IsIdle) :
    g'.starts x = g.starts x := (h.awake x hx).2

theorem pending_eq (h : g.Undisturbed g') (hx : ¬(g.fields x).status.IsIdle) :
    (g'.fields x).pending = (g.fields x).pending := by
  obtain ⟨⟨a, c, ha⟩, -⟩ := h.awake x hx
  rw [ha]

theorem sound (hs : g.Sound) (h : g.Undisturbed g') : g'.Sound := by
  have hroot : ∀ x q, (g'.fields x).root = some q → (g.fields x).root = some q :=
    fun x q e => by rwa [(progress hs h x).2.1] at e
  have hmember := hs.member_of_grows (h.grows hs) hroot
  have hturn : ∀ x, (g'.fields x).order.isTurn → ¬(g.fields x).status.IsIdle := fun x ho hi => by
    rw [(progress hs h x).2.2.1, ((hs.shaped x).idle hi).1.2.2.1] at ho
    cases ho
  refine ⟨by rw [h.stack]; exact hs.nodup, fun x => ?_, h.shaped hs, fun x y k hx hy => ?_,
    fun d x hx => ?_, fun x hx hdoom => ?_, hmember.1, hmember.2.1, hmember.2.2, fun x hx he => ?_,
    fun x ho he hp hr hrel => ?_⟩
  · rw [h.status_iff x (by simp [Status.IsIdle]), h.stack]
    exact hs.open_iff x
  · rw [(progress hs h _).2.2.1] at hx hy
    exact hs.distinct x y k hx hy
  · rw [(progress hs h d).2.2.2] at hx
    have ha := hs.awaits d x hx
    refine ⟨?_, fun k k' => ?_, fun hf => ?_, fun hst => ?_, fun ho => ?_, fun q hq hne => ?_,
      ReflTransGen.mono (h.grows hs).requests _ _ ha.reach⟩
    · rw [h.awake_iff]
      exact ha.awake
    · rw [(progress hs h d).2.2.1, (progress hs h x).2.2.1]
      exact ha.turn k k'
    · rw [failed_iff hs h] at hf ⊢
      rw [h.doom]
      exact ha.failed hf
    · rw [h.starts_eq ha.awake] at hst
      exact (complete_iff hs h d).2 (ha.started hst)
    · rw [h.stack] at ho ⊢
      exact ha.opened ho
    · rw [(progress hs h _).2.1] at hq ⊢
      exact ha.root q hq hne
  · rw [h.status_iff x (by simp [Status.IsIdle]), h.status_iff x (by simp [Status.IsIdle])] at hx
    rw [h.doom] at hdoom
    obtain ⟨k, hk, hle, hge⟩ := hs.balanced x hx hdoom
    refine ⟨k, ?_, ?_, fun hf => ?_⟩
    · rw [h.pending_eq, hk]
      intro hi
      rcases hx with hx | hx <;> rw [hx] at hi <;> exact hi
    · rwa [waits_eq hs h, h.debt]
    · rw [waits_eq hs h, h.debt]
      rw [rootFailed_iff hs h] at hf
      exact hge hf
  · rw [h.ready] at hx
    rw [(progress hs h x).1] at he
    obtain ⟨hst, hp, hstarts⟩ := hs.ready x hx he
    have hi : ¬(g.fields x).status.IsIdle := Status.awake_of_evaluatingAsync hst
    exact ⟨(h.status_iff x id).2 hst, by rw [h.pending_eq hi, hp], by rw [h.starts_eq hi, hstarts]⟩
  · have hi := hturn x ho
    obtain ⟨⟨a, c, ha⟩, hstarts⟩ := h.awake x hi
    rw [h.ready] at hr
    rw [h.released] at hrel
    rw [ha] at ho he hp ⊢
    rw [hstarts]
    exact hs.running x ho he hp hr hrel

end Undisturbed

/-! ## Changes of one module -/

def set (g : Graph) (m : ModuleId) (c : Cyclic) : Graph :=
  { g with fields := Function.update g.fields m c }

/-- One graph shows other fields than another one for a single module. -/
def Sets (g g' : Graph) (m : ModuleId) (c : Cyclic) : Prop :=
  g'.fields m = c ∧ ∀ x, x ≠ m → g'.fields x = g.fields x

theorem Sets.field {β : Type} {c : Cyclic} (h : g.Sets g' m c) (f : Cyclic → β)
    (hf : f c = f (g.fields m)) (x : ModuleId) : f (g'.fields x) = f (g.fields x) := by
  by_cases e : x = m
  · rw [e, h.1, hf]
  · rw [h.2 x e]

theorem sets_set (g : Graph) (m : ModuleId) (c : Cyclic) : g.Sets (g.set m c) m c :=
  ⟨Function.update_self .., fun _ h => Function.update_of_ne h ..⟩

theorem Sets.sameStage {c : Cyclic} (h : g.Sets g' m c) (hstatus : c.status = (g.fields m).status)
    (horder : c.order = (g.fields m).order) (herror : c.error = (g.fields m).error)
    (hroot : c.root = (g.fields m).root) (x : ModuleId) : g.SameStage g' x :=
  ⟨h.field (·.status) hstatus x, h.field (·.order) horder x, h.field (·.error) herror x,
    h.field (·.root) hroot x⟩

/-- A change of one module that is a step of evaluation. -/
theorem Sets.grows {c : Cyclic} (h : g.Sets g' m c) (hn : ∀ e ∈ g.journal, e ∈ g'.journal)
    (hl : ∀ x, g.leaf x → g'.leaf x) (ht : ∀ x e, g.threw x e → g'.threw x e)
    (hreq : c.requested = (g.fields m).requested)
    (hroot : c.root = (g.fields m).root)
    (hclosed : (g.fields m).root ≠ none → c.visit = (g.fields m).visit ∧
      ((g.fields m).order = .unset → c.order = .unset) ∧
        (c.status = .evaluatingAsync ∨ c.status = .evaluated))
    (hp : ∀ x ∈ (g.fields m).parents, x ∈ c.parents)
    (hcomplete : g.Complete m → c.status = .evaluated ∧ c.error = none) : g.Grows g' := by
  refine ⟨hn, hl, ht, fun x y => ?_, fun x q hx => ?_, fun x hx => ?_, fun x hx ho => ?_,
    fun x _ => h.field (·.requested) hreq x, fun x hx hs => ?_, fun d x hx => ?_, fun x hx => ?_⟩
  · rintro ⟨r, hr, he⟩
    exact ⟨r, by rwa [h.field (·.requested) hreq], hn _ he⟩
  · rw [h.field (·.root) hroot, hx]
  · by_cases e : x = m
    · subst e
      rw [visitOf, h.1, (hclosed hx).1, visitOf]
    · rw [visitOf, h.2 x e, visitOf]
  · by_cases e : x = m
    · subst e
      rw [h.1]
      exact (hclosed hx).2.1 ho
    · rwa [h.2 x e]
  · by_cases e : x = m
    · subst e
      rw [h.1]
      exact (hclosed hx).2.2
    · rwa [h.2 x e]
  · by_cases e : d = m
    · subst e
      rw [h.1]
      exact hp x hx
    · rwa [h.2 d e]
  · by_cases e : x = m
    · subst e
      rw [Complete, h.1]
      exact hcomplete hx
    · rwa [Complete, h.2 x e]

/-- A step that changes one module whose evaluation has begun. What is left to show is about this
module, about the numbers of waits and about the modules that are ready. -/
theorem Sound.change {c : Cyclic} (h : g.Sound) (hset : g.Sets g' m c) (hgrows : g.Grows g')
    (hstack : g'.stack = g.stack) (hsize : g'.size = g.size) (hcyclic : g'.cyclic = g.cyclic)
    (hturns : g.nextTurn ≤ g'.nextTurn) (hdoom : ∀ x ∈ g.doom, x ∈ g'.doom)
    (hstarts : ∀ x, x ≠ m → g'.starts x = g.starts x)
    (hroot : c.root = (g.fields m).root)
    (hopen : c.status = .evaluating ↔ (g.fields m).status = .evaluating)
    (hshaped : g'.Shaped m)
    (hdistinct : ∀ x k, x ≠ m → c.order = .turn k → (g.fields x).order ≠ .turn k)
    (hawaits : ∀ d, ∀ x ∈ (g'.fields d).parents, x = m ∨ d = m → g'.Awaits x d)
    (hbalanced : ∀ x, (g'.fields x).status = .evaluating ∨ (g'.fields x).status = .evaluatingAsync →
      x ∉ g'.doom → g'.Balanced x)
    (hready : ∀ x ∈ g'.ready, (g'.fields x).error = none →
      (g'.fields x).status = .evaluatingAsync ∧ (g'.fields x).pending = some 0 ∧ g'.starts x = 0)
    (hrunning : ∀ x, (g'.fields x).order.isTurn → (g'.fields x).error = none →
      (g'.fields x).pending = some 0 → x ∉ g'.ready → x ∉ g'.released →
        g'.starts x ≤ 1 ∧ (g'.fields x).hasAwait) :
    g'.Sound := by
  obtain ⟨hmember, hsettled, hseparate⟩ := h.member_of_grows hgrows
    fun x q hx => by rwa [hset.field (·.root) hroot] at hx
  exact
    { nodup := by
        rw [hstack]
        exact h.nodup
      open_iff := fun x => by
        rw [hstack, ← h.open_iff]
        by_cases e : x = m
        · rw [e, hset.1, hopen]
        · rw [hset.2 x e]
      shaped := fun x => by
        by_cases e : x = m
        · rwa [e]
        · exact (h.shaped x).of_fields (hset.2 x e) hgrows (by rw [hcyclic]; exact id)
            (hstarts x e) hturns hsize.ge
      distinct := fun x y k hx hy => by
        by_cases ex : x = m <;> by_cases ey : y = m
        · rw [ex, ey]
        · rw [ex, hset.1] at hx
          rw [hset.2 y ey] at hy
          exact (hdistinct y k ey hx hy).elim
        · rw [ey, hset.1] at hy
          rw [hset.2 x ex] at hx
          exact (hdistinct x k ex hy hx).elim
        · rw [hset.2 x ex] at hx
          rw [hset.2 y ey] at hy
          exact h.distinct x y k hx hy
      awaits := fun d x hx => by
        by_cases e : x = m ∨ d = m
        · exact hawaits d x hx e
        · obtain ⟨ex, ed⟩ := not_or.1 e
          rw [hset.2 d ed] at hx
          have ha := h.awaits d x hx
          refine SameStage.awaits (.of_fields (hset.2 x ex)) (.of_fields (hset.2 d ed)) ha hgrows
            (hdoom x) (hstarts x ex) ?_
          rw [hstack]
          exact ha.opened
      balanced := hbalanced
      member := hmember
      settled := hsettled
      separate := hseparate
      ready := hready
      running := hrunning }

end ModuleGraph.Graph

import ModuleGraph.Proofs.Runs.Jobs

/-! # What collecting changes

Telling modules that something they wait for is done changes nothing but how many things they wait
for, and only where the cycle of a module has not failed. Whoever waits for nothing more in the end,
and did wait before, has been collected. A module that waits counts what it is still to be told, so
the number that it has lost is the number of its waits for modules that are as good as done. -/

namespace ModuleGraph

def Module.withPending (x : Module) (k : Option Nat) : Module :=
  { x with kind := x.kind.updateCyclic fun c => { c with pending := k } }

theorem Module.withPending_withPending (x : Module) (k l : Option Nat) :
    (x.withPending k).withPending l = x.withPending l := by
  obtain ⟨kind, label, exports, metaObject⟩ := x
  cases kind <;> rfl

/-! ## Waits for modules that are as good as done -/

def waitEdges (fields : ModuleId → Cyclic) (xs : List ModuleId) (m : ModuleId) : Nat :=
  (xs.flatMap fun x => (fields x).parents).count m

theorem waitEdges_cons (fields : ModuleId → Cyclic) (x : ModuleId) (xs : List ModuleId)
    (m : ModuleId) :
    waitEdges fields (x :: xs) m = (fields x).parents.count m + waitEdges fields xs m := by
  rw [waitEdges, List.flatMap_cons, List.count_append, waitEdges]

namespace Graph

variable {g : Graph} {m : ModuleId} {xs : List ModuleId}

/-- Modules that are told to their parents at once are not waited for any more. -/
theorem waits_released (hn : xs.Nodup) (h : ∀ x ∈ xs, x.index < g.size ∧ g.owes x) :
    g.waits m =
      ({ g with released := xs ++ g.released } : Graph).waits m + waitEdges g.fields xs m := by
  induction xs with
  | nil => rfl
  | cons x rest ih =>
    obtain ⟨hx, hrest⟩ := List.nodup_cons.1 hn
    obtain ⟨hsize, howes⟩ := h x List.mem_cons_self
    set g₁ : Graph := { g with released := rest ++ g.released } with hg₁
    set g₂ : Graph := { g with released := x :: rest ++ g.released } with hg₂
    have hchange : g₂.waits m + g₁.weight m x = g₁.waits m + g₂.weight m x := by
      refine waits_change (g := g₁) rfl hsize fun d hd => weight_congr ?_ rfl
      exact owes_congr rfl rfl (List.mem_cons.trans (or_iff_right hd))
    simp only [owes, Bool.and_eq_true, Bool.not_eq_true', List.contains_eq_mem,
      decide_eq_false_iff_not] at howes
    have h₁ : g₁.weight m x = (g.fields x).parents.count m := by
      rw [weight, if_pos]
      simp [owes, hg₁, howes, hx]
    have h₂ : g₂.weight m x = 0 := by
      rw [weight, if_neg]
      simp [owes, hg₂]
    rw [ih hrest fun y hy => h y (List.mem_cons_of_mem _ hy), waitEdges_cons]
    omega

end Graph

namespace Machine

variable {σ κ : Type} {journal : σ → Journal} {owner : κ → ModuleId} {reserved : Set PromiseId}
variable {s s' s'' : Machine σ κ} {o : Focus} {x y m d : ModuleId} {n : Nat}
variable {ready ready' ready'' released rest : List ModuleId}

/-! ## One step -/

/-- Only a module that takes part in cycles waits for something. -/
theorem has_of_pending {k : Nat} (h : (s.cyclic x).pending = some k) : s.Has x := by
  by_contra hn
  rw [cyclic, cyclic?_eq, module_of_not_has hn] at h
  cases h

theorem module_withPending {k : Option Nat} (h : (s.cyclic x).pending = k) :
    (s.module x).withPending k = s.module x := by
  rw [cyclic, cyclic?_eq] at h
  generalize s.module x = y at h ⊢
  obtain ⟨kind, label, exports, metaObject⟩ := y
  cases kind with
  | leaf state => rfl
  | source | foreign =>
    cases h
    rfl

theorem module_release (hn : (s.cyclic x).pending = some (n + 1)) (y : ModuleId) :
    (s.release x).module y = if y = x then (s.module y).withPending (some n) else s.module y := by
  rw [release, updateCyclic, updateKind, module_updateModule s x y _ (has_of_pending hn)]
  split
  · rename_i e
    rw [e, Module.withPending]
    rw [cyclic, cyclic?_eq] at hn
    cases hk : (s.module x).kind with
    | leaf state => rfl
    | source | foreign =>
      rw [hk] at hn
      simp only [ModuleKind.cyclic?, Option.getD_some] at hn
      simp only [ModuleKind.updateCyclic, hn, Option.map_some, Nat.add_sub_cancel]
  · rfl

theorem pending_release (hn : (s.cyclic x).pending = some (n + 1)) :
    ((s.release x).cyclic x).pending = some n := by
  have hx : s.isCyclic x := by
    by_contra hc
    rw [cyclic_of_not_isCyclic (Bool.eq_false_of_not_eq_true hc)] at hn
    cases hn
  obtain ⟨c, hc⟩ := Option.isSome_iff_exists.1 hx
  rw [cyclic_of_cyclic? hc] at hn
  rw [release, cyclic_updateCyclic_self _ (has_of_pending (by rwa [cyclic_of_cyclic? hc])) hc, hn]
  rfl

structure StillWaits (s : Machine σ κ) (m : ModuleId) : Prop where
  status : (s.cyclic m).status = .evaluatingAsync
  pending : ∃ n, (s.cyclic m).pending = some (n + 1)
  root : ¬s.rootFailed m

structure Collected (ready ready' : List ModuleId) (s s' : Machine σ κ) : Prop where
  size : s'.modules.size = s.modules.size
  beside : { s' with modules := s.modules } = s
  module : ∀ y, s'.module y = s.module y ∨
    s.StillWaits y ∧ ∃ k, s'.module y = (s.module y).withPending (some k)
  grown : ready ⊆ ready'
  new : ∀ y ∈ ready', y ∈ ready ∨ s.StillWaits y
  zero : ∀ y, (s'.cyclic y).pending = some 0 → (s.cyclic y).pending = some 0 ∨ y ∈ ready'

namespace Collected

theorem field {β : Type} (h : s.Collected ready ready' s') (φ : Cyclic → β)
    (hφ : ∀ c k, φ { c with pending := k } = φ c) (y : ModuleId) :
    φ (s'.cyclic y) = φ (s.cyclic y) := by
  obtain hy | ⟨-, k, hy⟩ := h.module y
  · rw [cyclic_of_module hy]
  · rw [cyclic, cyclic, cyclic?, cyclic?, hy, Module.withPending, ModuleKind.cyclic?_updateCyclic]
    cases (s.module y).kind.cyclic? with
    | none => rfl
    | some c => exact hφ c (some k)

theorem rootFailed (h : s.Collected ready ready' s') (y : ModuleId) :
    s'.rootFailed y = s.rootFailed y := by
  rw [Machine.rootFailed, Machine.rootFailed, cycleRoot_eq, cycleRoot_eq,
    h.field (·.root) fun _ _ => rfl, h.field (·.error) fun _ _ => rfl]

theorem stillWaits (h : s.Collected ready ready' s') (hy : s'.StillWaits y) : s.StillWaits y := by
  obtain hsame | ⟨hy, -⟩ := h.module y
  · obtain ⟨hs, hp, hroot⟩ := hy
    rw [cyclic_of_module hsame] at hs hp
    rw [h.rootFailed] at hroot
    exact ⟨hs, hp, hroot⟩
  · exact hy

theorem refl (s : Machine σ κ) (ready : List ModuleId) : s.Collected ready ready s :=
  ⟨rfl, rfl, fun _ => .inl rfl, fun _ => id, fun _ => .inl, fun _ => .inl⟩

theorem trans (h : s.Collected ready ready' s') (h' : s'.Collected ready' ready'' s'') :
    s.Collected ready ready'' s'' where
  size := h'.size.trans h.size
  beside := by
    have h₁ := congrArg (fun t : Machine σ κ => { t with modules := s.modules }) h'.beside
    exact h₁.trans h.beside
  module y := by
    obtain hy' | ⟨hwaits', k, hy'⟩ := h'.module y <;> obtain hy | ⟨hwaits, l, hy⟩ := h.module y
    · exact .inl (hy'.trans hy)
    · exact .inr ⟨hwaits, l, hy'.trans hy⟩
    · exact .inr ⟨h.stillWaits hwaits', k, by rw [hy', hy]⟩
    · exact .inr ⟨hwaits, k, by rw [hy', hy, Module.withPending_withPending]⟩
  grown _ hy := h'.grown (h.grown hy)
  new y hy := (h'.new y hy).elim (h.new y) fun hwaits => .inr (h.stillWaits hwaits)
  zero y hy := (h'.zero y hy).elim (fun hy => (h.zero y hy).imp id fun hy => h'.grown hy) .inr

theorem release (hs : (s.cyclic x).status = .evaluatingAsync) (hroot : ¬s.rootFailed x)
    (hn : (s.cyclic x).pending = some (n + 1)) (hgrown : ready ⊆ ready')
    (hnew : ∀ y ∈ ready', y ∈ ready ∨ y = x) (hzero : n = 0 → x ∈ ready') :
    s.Collected ready ready' (s.release x) where
  size := size_updateModule ..
  beside := rfl
  module y := by
    rw [module_release hn]
    split
    · rename_i e
      rw [e]
      exact .inr ⟨⟨hs, ⟨n, hn⟩, hroot⟩, n, rfl⟩
    · exact .inl rfl
  grown := hgrown
  new y hy := (hnew y hy).imp id fun e => by
    rw [e]
    exact ⟨hs, ⟨n, hn⟩, hroot⟩
  zero y hy := by
    by_cases e : y = x
    · rw [e, pending_release hn] at hy
      rw [e]
      exact .inr (hzero (Option.some.inj hy))
    · have hsame : (s.release x).module y = s.module y := by rw [module_release hn, if_neg e]
      rw [cyclic_of_module hsame] at hy
      exact .inl hy

/-- A module waits for one thing less, and it still waits. -/
theorem lower (ready : List ModuleId) (hs : (s.cyclic x).status = .evaluatingAsync)
    (hroot : ¬s.rootFailed x) (hn : (s.cyclic x).pending = some (n + 2)) :
    s.Collected ready ready (s.release x) :=
  .release hs hroot hn (fun _ => id) (fun _ => .inl) fun e => nomatch e

/-- A module waits for nothing more, and it is collected. -/
theorem join (ready : List ModuleId) (hs : (s.cyclic x).status = .evaluatingAsync)
    (hroot : ¬s.rootFailed x) (hn : (s.cyclic x).pending = some 1) :
    s.Collected ready (ready ++ [x]) (s.release x) :=
  .release hs hroot hn (List.subset_append_left _ _)
    (fun _ hy => (List.mem_append.1 hy).imp id List.mem_singleton.1)
    fun _ => List.mem_append_right _ (List.mem_singleton_self _)

end Collected

/-! ## The recursion -/

/-- Each module of a list waits unless its cycle has failed, and so does whatever waits for a module
that waits. -/
structure Tellable (s : Machine σ κ) (xs : List ModuleId) : Prop where
  told : ∀ x ∈ xs, ¬s.rootFailed x → (s.cyclic x).status = .evaluatingAsync
  onward : ∀ x, (s.cyclic x).status = .evaluatingAsync → ∀ y ∈ (s.cyclic x).parents,
    ¬s.rootFailed y → (s.cyclic y).status = .evaluatingAsync

theorem Tellable.tail (h : s.Tellable (x :: rest)) : s.Tellable rest :=
  ⟨fun y hy => h.told y (List.mem_cons_of_mem _ hy), h.onward⟩

theorem Collected.tellable {xs : List ModuleId} (h : s.Collected ready ready' s')
    (ht : s.Tellable xs) : s'.Tellable xs := by
  have hstatus : ∀ y, (s'.cyclic y).status = (s.cyclic y).status :=
    h.field (·.status) fun _ _ => rfl
  have hparents : ∀ y, (s'.cyclic y).parents = (s.cyclic y).parents :=
    h.field (·.parents) fun _ _ => rfl
  refine ⟨fun y hy hroot => ?_, fun y hy z hz hroot => ?_⟩
  · rw [h.rootFailed] at hroot
    rw [hstatus]
    exact ht.told y hy hroot
  · rw [hstatus] at hy
    rw [hparents] at hz
    rw [h.rootFailed] at hroot
    rw [hstatus]
    exact ht.onward y hy z hz hroot

theorem Gathering.tellable {o : Focus} {released debt : List ModuleId}
    (h : s.Gathering journal owner reserved o ready released debt) : s.Tellable debt where
  told _ hx := h.waits hx
  onward _ hx _ hy := h.waits_of_unstarted (h.told_parents hx hy).1 (h.told_parents hx hy).2

theorem Collects.collected {xs : List ModuleId} (h : Collects s ready xs ready' s')
    (ht : s.Tellable xs) : s.Collected ready ready' s' := by
  induction h with
  | nil s ready => exact .refl s ready
  | pass _ _ ih => exact ih ht.tail
  | @lower s _ ready _ _ _ _ _ hf hn _ ih =>
    have hone := Collected.lower ready (ht.told _ List.mem_cons_self hf) hf hn
    exact hone.trans (ih (hone.tellable ht.tail))
  | @await s _ ready _ _ _ _ hf hn _ _ ih =>
    have hone := Collected.join ready (ht.told _ List.mem_cons_self hf) hf hn
    exact hone.trans (ih (hone.tellable ht.tail))
  | @sync s _ _ ready _ _ _ _ _ hf hn _ _ _ ih ih' =>
    have hx := ht.told _ List.mem_cons_self hf
    have hone := Collected.join ready hx hf hn
    have hparents := hone.trans (ih (hone.tellable ⟨ht.onward _ hx, ht.onward⟩))
    exact hparents.trans (ih' (hparents.tellable ht.tail))

/-- The recursion has one outcome. -/
theorem Collects.unique {xs : List ModuleId} (h : Collects s ready xs ready' s')
    (h' : Collects s ready xs ready'' s'') : ready'' = ready' ∧ s'' = s' := by
  induction h generalizing ready'' s'' with
  | nil =>
    cases h'
    exact ⟨rfl, rfl⟩
  | pass hx _ ih =>
    cases h' with
    | pass _ h' => exact ih h'
    | lower hx' hf' | await hx' hf' | sync hx' hf' => exact (hx.elim hx' hf').elim
  | lower hx hf hn _ ih =>
    cases h' with
    | pass hx' => exact (hx'.elim hx hf).elim
    | lower _ _ hn' h' =>
      cases hn.symm.trans hn'
      exact ih h'
    | await _ _ hn' | sync _ _ hn' => cases hn.symm.trans hn'
  | await hx hf hn ha _ ih =>
    cases h' with
    | pass hx' => exact (hx'.elim hx hf).elim
    | lower _ _ hn' => cases hn.symm.trans hn'
    | await _ _ _ _ h' => exact ih h'
    | sync _ _ _ ha' => cases ha.symm.trans ha'
  | sync hx hf hn ha _ _ ih ih' =>
    cases h' with
    | pass hx' => exact (hx'.elim hx hf).elim
    | lower _ _ hn' => cases hn.symm.trans hn'
    | await _ _ _ ha' => cases ha.symm.trans ha'
    | sync _ _ _ _ h₁ h₂ =>
      obtain ⟨rfl, rfl⟩ := ih h₁
      exact ih' h₂

end Machine

end ModuleGraph

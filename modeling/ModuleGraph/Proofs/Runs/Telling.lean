import ModuleGraph.Proofs.Evaluation.Telling
import ModuleGraph.Proofs.Runs.Failing

/-! # Telling the parents during a run

When the body of a module that waited has come to its end, the promise of the module is told, and
so is every module that waits for it. The modules that wait for nothing more are gathered in a list.
One without top-level await is as good as done, so the modules that wait for it are told at once. -/

namespace ModuleGraph

open Relation

variable {σ κ : Type} {journal : σ → Journal} {owner : κ → ModuleId} {reserved : Set PromiseId}
variable {hosts : Set (Host σ κ)} {host : Host σ κ}

namespace Machine

variable {s s' : Machine σ κ} {o : Focus} {m x : ModuleId} {e : Value}
variable {ready released debt doom rest : List ModuleId}

/-! ## A good end -/

/-- A module whose body has come to its end is complete, and its promise is told next. -/
theorem Working.complete (h : s.Working journal owner reserved o ready released debt doom)
    (hm : (s.cyclic m).status = .evaluatingAsync) (hstarts : (journal s.host).starts m = 1)
    (hend : Entry.ended m ∈ journal s.host) (hready : m ∉ ready)
    {released' debt' excused : List ModuleId}
    (hreleased : ∀ x, x ≠ m → (x ∈ released' ↔ x ∈ released))
    (hdebt : ∀ x, debt'.count x =
      debt.count x + (s.graph journal (.run ready released debt doom)).weight x m)
    (hexcused : ∀ x, x ≠ m → (x ∈ excused ↔ x ∈ o.excused)) (hdone : m ∈ o.excused) :
    (s.complete m).Working journal owner reserved
      (({ o with excused } : Focus).tell m (s.cyclic m).capability) ready released' debt' doom := by
  have hmi : ¬(s.cyclic m).status.IsIdle := Status.awake_of_evaluatingAsync hm
  have hfields := fields_updateCyclic (has_of_awake hmi) (isCyclic_of_awake hmi)
    fun c => { c with order := .done, status := .evaluated }
  refine ⟨?_, h.coherent.ends (h.sound.shaped m) hm Cyclic.ends_complete hexcused (.inl hdone),
    ⟨h.idle.busy, h.idle.leaf, h.idle.linked⟩, fun x hx => ?_⟩
  · rw [Machine.complete, graph_updateCyclic (has_of_awake hmi) (isCyclic_of_awake hmi)
      Cyclic.ends_complete.kept]
    exact h.sound.finish hm hstarts hend hready hreleased hdebt
  · rw [Machine.complete, hfields]
    by_cases ex : x = m
    · rw [ex, Function.update_self]
    · rw [Function.update_of_ne ex]
      exact h.late x ((Focus.isLate_tell ex).1 hx)

/-- The promise of a module that is complete is told so. -/
theorem Working.answer (hc : Conduct journal owner reserved hosts) (hh : host ∈ hosts)
    (h : s.Working journal owner reserved (o.tell m (s.cyclic m).capability) ready released debt
      doom)
    (hl : ¬o.IsLate m) (hs : (s.cyclic m).status = .evaluated) (he : (s.cyclic m).error = none) :
    (s.answer host m).Working journal owner reserved o ready released debt doom ∧
      s.Beside journal (s.answer host m) := by
  rw [Machine.answer]
  split
  · rename_i c hcap
    rw [hcap] at h
    have hset : s.Settles journal (s.resolve host.track c .undefined) c.promise :=
      resolve_settles _ (hc.track host hh) c .undefined
    have hcoh := h.coherent.resolved hc hh (show _ = (m, c) :: o.late from rfl)
      (fun d hd => hl ⟨d, hd⟩) hs he
    exact ⟨h.quiet hset.quiet hcoh ⟨h.idle.busy, h.idle.leaf, h.idle.linked⟩
      fun x hx => Focus.isLate_of_tell hx, hset.beside⟩
  · rename_i hcap
    rw [hcap] at h
    exact ⟨h, .refl s⟩

theorem cyclic_of_beside (hb : s.Beside journal s') : s'.cyclic = s.cyclic := by
  funext x
  rw [cyclic, cyclic?, module, hb.modules]
  rfl

structure Done (journal : σ → Journal) (m : ModuleId) (s s' : Machine σ κ) : Prop where
  fields : s'.cyclic =
    Function.update s.cyclic m { s.cyclic m with order := .done, status := .evaluated }
  journal : journal s'.host = journal s.host

/-- A module that has run to its end is complete, and its promise is told so. -/
theorem Working.done (hc : Conduct journal owner reserved hosts) (hh : host ∈ hosts)
    (h : s.Working journal owner reserved o ready released debt doom)
    (hm : (s.cyclic m).status = .evaluatingAsync) (hstarts : (journal s.host).starts m = 1)
    (hend : Entry.ended m ∈ journal s.host) (hready : m ∉ ready)
    {released' debt' excused : List ModuleId}
    (hreleased : ∀ x, x ≠ m → (x ∈ released' ↔ x ∈ released))
    (hdebt : ∀ x, debt'.count x =
      debt.count x + (s.graph journal (.run ready released debt doom)).weight x m)
    (hexcused : ∀ x, x ≠ m → (x ∈ excused ↔ x ∈ o.excused)) (hdone : m ∈ o.excused) :
    ((s.complete m).answer host m).Working journal owner reserved { o with excused } ready released'
        debt' doom ∧ s.Done journal m ((s.complete m).answer host m) := by
  have hmi : ¬(s.cyclic m).status.IsIdle := Status.awake_of_evaluatingAsync hm
  have hfields : (s.complete m).cyclic =
      Function.update s.cyclic m { s.cyclic m with order := .done, status := .evaluated } :=
    fields_updateCyclic (has_of_awake hmi) (isCyclic_of_awake hmi) _
  have hself : (s.complete m).cyclic m =
      { s.cyclic m with order := .done, status := .evaluated } := by
    rw [hfields, Function.update_self]
  have hw := h.complete hm hstarts hend hready hreleased hdebt hexcused hdone
  rw [show (s.cyclic m).capability = ((s.complete m).cyclic m).capability by rw [hself]] at hw
  obtain ⟨hw', hb⟩ := hw.answer hc hh (h.not_late hm) (by rw [hself]) (by
    rw [hself]
    exact ((h.sound.shaped m).waiting hm).1)
  exact ⟨hw', (cyclic_of_beside hb).trans hfields, hb.journal⟩

/-! ## Gathering the modules that are ready -/

/-- The modules of a list are to be told that something they wait for is done. None of them has
run. -/
structure Gathering (journal : σ → Journal) (owner : κ → ModuleId) (reserved : Set PromiseId)
    (o : Focus) (ready released debt : List ModuleId) (s : Machine σ κ) : Prop extends
    s.Working journal owner reserved { o with excused := ready } ready released debt [] where
  nodup : ready.Nodup
  mem_released : ∀ x, x ∈ released ↔ x ∈ ready ∧ (s.cyclic x).hasAwait = false
  told : ∀ x ∈ debt, ¬(s.cyclic x).status.IsIdle ∧ (journal s.host).starts x = 0

theorem rootFailed_iff :
    s.rootFailed x ↔ (s.cyclic ((s.cyclic x).root.getD x)).error ≠ none := by
  rw [rootFailed, cycleRoot_eq, Option.isSome_iff_ne_none]

/-- If the cycle of a module has not failed then neither has the module. -/
theorem Working.error_eq_none (h : s.Working journal owner reserved o ready released debt [])
    (hx : ¬s.rootFailed x) : (s.cyclic x).error = none := by
  by_contra he
  refine hx (rootFailed_iff.2 ?_)
  cases hr : (s.cyclic x).root with
  | none => exact he
  | some q => exact h.sound.failed_root rfl _ x rfl hr he

namespace Gathering

/-- A module that waits and is to be told waits for something. -/
theorem pending (h : s.Gathering journal owner reserved o ready released (x :: rest))
    (hx : (s.cyclic x).status = .evaluatingAsync) : ∃ n, (s.cyclic x).pending = some (n + 1) := by
  obtain ⟨k, hk, hle, -⟩ := h.sound.balanced x (.inr hx) List.not_mem_nil
  have hcount : 0 < (x :: rest).count x := List.count_pos_iff.2 List.mem_cons_self
  have hpos : 0 < k := Nat.lt_of_lt_of_le hcount ((Nat.le_add_left _ _).trans hle)
  exact ⟨k - 1, by rw [Nat.sub_add_cancel hpos]; exact hk⟩

theorem not_mem_ready (h : s.Gathering journal owner reserved o ready released (x :: rest))
    (hx : (s.cyclic x).status = .evaluatingAsync) : x ∉ ready := fun hr => by
  obtain ⟨n, hn⟩ := h.pending hx
  have h0 := (h.sound.ready x hr ((h.sound.shaped x).waiting hx).1).2.1
  rw [show ((s.graph journal _).fields x).pending = some (n + 1) from hn] at h0
  cases h0

/-- A module whose evaluation has begun but whose body has not run waits, unless its cycle has
failed. -/
theorem waits_of_unstarted (h : s.Gathering journal owner reserved o ready released debt)
    (hi : ¬(s.cyclic x).status.IsIdle) (hstarts : (journal s.host).starts x = 0)
    (hx : ¬s.rootFailed x) : (s.cyclic x).status = .evaluatingAsync := by
  refine (h.awake hi).resolve_right fun hs => ?_
  have := ((h.sound.shaped x).complete hs (h.error_eq_none hx)).2.2.1
  rw [show (s.graph journal _).starts x = 0 from hstarts] at this
  cases this

/-- A module that is to be told and whose cycle has not failed waits. -/
theorem waits (h : s.Gathering journal owner reserved o ready released debt) (hd : x ∈ debt)
    (hx : ¬s.rootFailed x) : (s.cyclic x).status = .evaluatingAsync :=
  h.waits_of_unstarted (h.told x hd).1 (h.told x hd).2 hx

/-- A module that has failed, or whose cycle has, is not told. -/
theorem forgive (h : s.Gathering journal owner reserved o ready released (x :: rest))
    (hx : (s.cyclic x).status = .evaluatingAsync → s.rootFailed x) :
    s.Gathering journal owner reserved o ready released rest := by
  refine { h with
    sound := h.sound.forgive rfl fun hs => rootFailed_iff.1 (hx ?_)
    told := fun y hy => h.told y (List.mem_cons_of_mem _ hy) }
  exact hs.resolve_left fun e => nomatch (h.sound.open_iff x).1 e

theorem mem_ite_append {α : Type} {c : Prop} [Decidable c] {l : List α} {a b : α} :
    b ∈ (if c then l ++ [a] else l) ↔ b ∈ l ∨ b = a ∧ c := by
  split <;> simp_all

section Release

variable {n : Nat} (hx : (s.cyclic x).status = .evaluatingAsync)
variable (hn : (s.cyclic x).pending = some (n + 1))
include hx hn

theorem fields_release : (s.release x).cyclic =
    Function.update s.cyclic x { s.cyclic x with pending := some n } := by
  have hxi : ¬(s.cyclic x).status.IsIdle := Status.awake_of_evaluatingAsync hx
  rw [Machine.release, fields_updateCyclic (has_of_awake hxi) (isCyclic_of_awake hxi), hn]
  rfl

theorem field_release {β : Type} (φ : Cyclic → β) (hφ : ∀ c k, φ { c with pending := k } = φ c)
    (y : ModuleId) : φ ((s.release x).cyclic y) = φ (s.cyclic y) := by
  rw [fields_release hx hn]
  by_cases e : y = x
  · rw [e, Function.update_self, hφ]
  · rw [Function.update_of_ne e]

theorem graph_release (journal : σ → Journal)
    (ready released debt ready' released' : List ModuleId) :
    (s.release x).graph journal (.run ready' released' debt []) =
      (s.graph journal (.run ready released (x :: rest) [])).release x n debt ready' released' := by
  have hxi : ¬(s.cyclic x).status.IsIdle := Status.awake_of_evaluatingAsync hx
  rw [Machine.release, graph_updateCyclic (has_of_awake hxi) (isCyclic_of_awake hxi)
    (f := fun c => { c with pending := c.pending.map (· - 1) }) fun _ => ⟨rfl, rfl⟩, hn]
  rfl

/-- A module that waits for nothing more is excused until it is run. -/
theorem coherent_release {ready' : List ModuleId}
    (h : s.Coherent journal owner reserved { o with excused := ready })
    (hwaits : (s.cyclic x).error = none ∧ (s.cyclic x).order.isTurn)
    (hready : ∀ y, y ≠ x → (y ∈ ready' ↔ y ∈ ready)) (hzero : n = 0 → x ∈ ready') :
    (s.release x).Coherent journal owner reserved { o with excused := ready' } := by
  have hrefields : s.Refields (s.release x) := refields_updateCyclic s x fun _ => ⟨rfl, rfl⟩
  have hfields := fields_release hx hn
  have horder : ∀ y, ((s.release x).cyclic y).order = (s.cyclic y).order :=
    field_release hx hn (·.order) fun _ _ => rfl
  have herror : ∀ y, ((s.release x).cyclic y).error = (s.cyclic y).error :=
    field_release hx hn (·.error) fun _ _ => rfl
  refine h.untold hrefields (fun y hy => ?_) (fun y hy => ?_) (fun _ hl => ?_) fun y => ?_
  · have ey : y ≠ x := by
      rintro rfl
      have hp := hy.begun.2.2 hwaits.2 hwaits.1
      rw [hn] at hp
      cases hp
    have hsame : (s.release x).cyclic y = s.cyclic y := by rw [hfields, Function.update_of_ne ey]
    refine ⟨⟨by rw [hrefields.isCyclic]; exact hy.begun.1, ?_⟩, ?_, fun e => ?_⟩
    · rw [hsame]
      exact hy.begun.2
    · rw [hsame]
      exact hy.failed
    · exact hy.owed ((hready y ey).1 e)
  · obtain ⟨ho, he, hp, hne⟩ := hy
    have ey : y ≠ x := by
      rintro rfl
      rw [hfields, Function.update_self] at hp
      exact hne (hzero (Option.some.inj hp))
    rw [hfields, Function.update_of_ne ey] at ho he hp
    exact ⟨ho, he, hp, fun hy => hne ((hready y ey).2 hy)⟩
  · exact hl.updateCyclic x (fun _ => rfl) fun c _ => .inr ⟨rfl, rfl, rfl⟩
  · exact .inl ⟨field_release hx hn (·.status) (fun _ _ => rfl) y, herror y,
      field_release hx hn (·.root) (fun _ _ => rfl) y⟩

end Release

/-- A parent of a module that waits has not run. -/
theorem told_parents (h : s.Gathering journal owner reserved o ready released debt)
    (hx : (s.cyclic x).status = .evaluatingAsync) (hy : m ∈ (s.cyclic x).parents) :
    ¬(s.cyclic m).status.IsIdle ∧ (journal s.host).starts m = 0 := by
  have ha := h.sound.awaits x m hy
  refine ⟨ha.awake, by_contra fun hs => ?_⟩
  have := (ha.started hs).1
  rw [show ((s.graph journal _).fields x).status = .evaluatingAsync from hx] at this
  cases this

/-- A module waits for one thing less. If it waits for nothing more it is ready; if moreover it has
no top-level await then its parents are to be told. -/
theorem release (h : s.Gathering journal owner reserved o ready released (x :: rest)) {n : Nat}
    (hx : (s.cyclic x).status = .evaluatingAsync) (hn : (s.cyclic x).pending = some (n + 1)) :
    ∃ released', (s.release x).Gathering journal owner reserved o
      (if n = 0 then ready ++ [x] else ready) released'
      (if n = 0 ∧ ((s.release x).cyclic x).hasAwait = false then
        ((s.release x).cyclic x).parents ++ rest else rest) := by
  have hnready := h.not_mem_ready hx
  have hnreleased : x ∉ released := fun hr => hnready ((h.mem_released x).1 hr).1
  have hstatus : ∀ y, ((s.release x).cyclic y).status = (s.cyclic y).status :=
    field_release hx hn (·.status) fun _ _ => rfl
  have hawait : ∀ y, ((s.release x).cyclic y).hasAwait = (s.cyclic y).hasAwait :=
    field_release hx hn (·.hasAwait) fun _ _ => rfl
  rw [hawait, field_release hx hn (·.parents) fun _ _ => rfl]
  refine ⟨if n = 0 ∧ (s.cyclic x).hasAwait = false then released ++ [x] else released,
    ⟨⟨?sound, ?coherent, ⟨h.idle.busy, h.idle.leaf, h.idle.linked⟩, ?late⟩, ?nodup, ?released,
      ?told⟩⟩
  case sound =>
    rw [graph_release hx hn journal ready released]
    exact h.sound.release hx hn rfl hnready hnreleased (fun _ => mem_ite_append)
      (fun _ => mem_ite_append) rfl
  case coherent =>
    exact coherent_release hx hn h.coherent
      ⟨((h.sound.shaped x).waiting hx).1, ((h.sound.shaped x).waiting hx).2.2⟩
      (fun y hy => mem_ite_append.trans (or_iff_left fun e => hy e.1))
      fun h0 => mem_ite_append.2 (.inr ⟨rfl, h0⟩)
  case late =>
    intro y hy
    rw [hstatus]
    exact h.late y hy
  case nodup =>
    split
    · exact List.nodup_append.2 ⟨h.nodup, List.nodup_singleton x, fun y hy z hz e =>
        hnready (by rwa [← List.mem_singleton.1 hz, ← e])⟩
    · exact h.nodup
  case released =>
    intro y
    rw [mem_ite_append, mem_ite_append, h.mem_released, hawait]
    constructor
    · rintro (⟨hy, ha⟩ | ⟨rfl, h0, ha⟩)
      · exact ⟨.inl hy, ha⟩
      · exact ⟨.inr ⟨rfl, h0⟩, ha⟩
    · rintro ⟨hy | ⟨rfl, h0⟩, ha⟩
      · exact .inl ⟨hy, ha⟩
      · exact .inr ⟨rfl, h0, ha⟩
  case told =>
    intro y hy
    rw [hstatus]
    split at hy
    · obtain hy | hy := List.mem_append.1 hy
      · exact h.told_parents hx hy
      · exact h.told y (List.mem_cons_of_mem _ hy)
    · exact h.told y (List.mem_cons_of_mem _ hy)

/-- The evaluation of a module that is ready has begun. -/
theorem awake_ready (h : s.Gathering journal owner reserved o ready released debt)
    (hx : x ∈ ready) : ¬(s.cyclic x).status.IsIdle := fun hi => by
  have hs := (h.sound.ready x hx ((h.sound.shaped x).idle hi).1.1).1
  rw [show (s.cyclic x).status = .evaluatingAsync from hs] at hi
  exact hi

/-- A list of modules that are ready is not longer than the number of modules. -/
theorem length_le (h : s.Gathering journal owner reserved o ready released debt) :
    ready.length ≤ s.modules.size := by
  have hnodup : (ready.map (·.index)).Nodup :=
    h.nodup.map fun x y e => by cases x; cases y; exact congrArg _ e
  have hsub : ready.map (·.index) ⊆ List.range s.modules.size := by
    intro i hi
    obtain ⟨x, hx, rfl⟩ := List.mem_map.1 hi
    exact List.mem_range.2 (has_of_awake (h.awake_ready hx))
  have := (List.subperm_of_subset hnodup hsub).length_le
  rwa [List.length_map, List.length_range] at this

end Gathering

/-! ## The recursion without a bound -/

/-- Modules are told one after the other that something they wait for is done. One that is ready
already, or whose cycle has failed, is passed over. Any other one waits for one thing less. If it
waits for nothing more then it joins the list, and if moreover it has no top-level await then those
that wait for it are told at once. How deep this goes is not bounded. There is no way on from a
module that is to be told and waits for nothing. -/
inductive Collects : Machine σ κ → List ModuleId → List ModuleId → List ModuleId →
    Machine σ κ → Prop
  | nil (s : Machine σ κ) (ready : List ModuleId) : Collects s ready [] ready s
  | pass {s s' : Machine σ κ} {ready ready' rest : List ModuleId} {x : ModuleId} :
      x ∈ ready ∨ s.rootFailed x → Collects s ready rest ready' s' →
        Collects s ready (x :: rest) ready' s'
  | lower {s s' : Machine σ κ} {ready ready' rest : List ModuleId} {x : ModuleId} {n : Nat} :
      x ∉ ready → ¬s.rootFailed x → (s.cyclic x).pending = some (n + 2) →
      Collects (s.release x) ready rest ready' s' → Collects s ready (x :: rest) ready' s'
  | await {s s' : Machine σ κ} {ready ready' rest : List ModuleId} {x : ModuleId} :
      x ∉ ready → ¬s.rootFailed x → (s.cyclic x).pending = some 1 → (s.cyclic x).hasAwait →
      Collects (s.release x) (ready ++ [x]) rest ready' s' → Collects s ready (x :: rest) ready' s'
  | sync {s s₁ s' : Machine σ κ} {ready ready₁ ready' rest : List ModuleId} {x : ModuleId} :
      x ∉ ready → ¬s.rootFailed x → (s.cyclic x).pending = some 1 →
      (s.cyclic x).hasAwait = false →
      Collects (s.release x) (ready ++ [x]) (s.cyclic x).parents ready₁ s₁ →
      Collects s₁ ready₁ rest ready' s' → Collects s ready (x :: rest) ready' s'

theorem Collects.append {s₁ : Machine σ κ} {ready₁ ready' xs ys : List ModuleId}
    (h : Collects s ready xs ready₁ s₁) (h' : Collects s₁ ready₁ ys ready' s') :
    Collects s ready (xs ++ ys) ready' s' := by
  induction h with
  | nil => exact h'
  | pass hx _ ih => exact .pass hx (ih h')
  | lower hx hf hn _ ih => exact .lower hx hf hn (ih h')
  | await hx hf hn ha _ ih => exact .await hx hf hn ha (ih h')
  | sync hx hf hn ha h₁ _ _ ih => exact .sync hx hf hn ha h₁ (ih h')

/-- What telling the modules `xs` comes to: the list of ready modules has grown, and the rest is
still to be told. -/
structure Gathers (journal : σ → Journal) (owner : κ → ModuleId) (reserved : Set PromiseId)
    (o : Focus) (xs rest ready : List ModuleId) (s : Machine σ κ)
    (r : List ModuleId × Machine σ κ) : Prop where
  gathering : ∃ released, r.2.Gathering journal owner reserved o r.1 released rest
  size : r.2.modules.size = s.modules.size
  grown : ready.length ≤ r.1.length
  collects : Collects s ready xs r.1 r.2

def GatheringsEnd (journal : σ → Journal) (owner : κ → ModuleId) (reserved : Set PromiseId)
    (o : Focus) (fuel : Nat) : Prop :=
  ∀ (ready released rest : List ModuleId) (m : ModuleId) (s : Machine σ κ),
    s.Gathering journal owner reserved o ready released ((s.cyclic m).parents ++ rest) →
    s.modules.size + 1 ≤ fuel + ready.length →
      Gathers journal owner reserved o (s.cyclic m).parents rest ready s
        (gatherReady fuel s m ready)

theorem gatherOne_gathers {fuel : Nat}
    (ih : GatheringsEnd (σ := σ) (κ := κ) journal owner reserved o fuel)
    (h : s.Gathering journal owner reserved o ready released (x :: rest))
    (hfuel : s.modules.size + 1 ≤ fuel + 1 + ready.length) :
    Gathers journal owner reserved o [x] rest ready s (gatherOne (gatherReady fuel) s ready x) := by
  rw [gatherOne]
  split
  · rename_i hskip
    have hpass : x ∈ ready ∨ s.rootFailed x :=
      (Bool.or_eq_true_iff.1 hskip).imp List.contains_iff_mem.1 id
    refine ⟨⟨released, h.forgive fun hs => ?_⟩, rfl, le_rfl, .pass hpass (.nil s ready)⟩
    exact hpass.resolve_left (h.not_mem_ready hs)
  · rename_i hskip
    have hroot : ¬s.rootFailed x := fun hr => hskip (by rw [hr, Bool.or_true])
    have hx := h.waits List.mem_cons_self hroot
    have hnready := h.not_mem_ready hx
    obtain ⟨n, hn⟩ := h.pending hx
    obtain ⟨released', hrel⟩ := h.release hx hn
    have hsize : (s.release x).modules.size = s.modules.size := size_updateModule ..
    rw [hn]
    dsimp only
    split
    · rename_i h0
      have hgrown : (ready ++ [x]).length = ready.length + 1 := List.length_append
      have hawait : ((s.release x).cyclic x).hasAwait = (s.cyclic x).hasAwait :=
        Gathering.field_release hx hn (·.hasAwait) (fun _ _ => rfl) x
      subst h0
      simp only [if_true, true_and] at hrel
      split
      · rename_i ha
        rw [if_neg (by rw [ha]; exact fun e => nomatch e)] at hrel
        exact ⟨⟨released', hrel⟩, hsize, (Nat.le_succ _).trans_eq hgrown.symm,
          .await hnready hroot hn (hawait ▸ ha) (.nil _ _)⟩
      · rename_i ha
        have ha := Bool.eq_false_of_not_eq_true ha
        rw [if_pos ha] at hrel
        have hr := ih _ _ _ _ _ hrel (by omega)
        refine ⟨hr.gathering, hr.size.trans hsize,
          (Nat.le_succ _).trans (hgrown.symm.trans_le hr.grown),
          .sync hnready hroot hn (hawait ▸ ha) ?_ (.nil _ _)⟩
        rw [← Gathering.field_release hx hn (·.parents) fun _ _ => rfl]
        exact hr.collects
    · rename_i h0
      simp only [h0, if_false, false_and] at hrel
      obtain ⟨k, rfl⟩ := Nat.exists_eq_succ_of_ne_zero h0
      exact ⟨⟨released', hrel⟩, hsize, le_rfl, .lower hnready hroot hn (.nil _ _)⟩

theorem gatherAll_gathers {fuel : Nat}
    (ih : GatheringsEnd (σ := σ) (κ := κ) journal owner reserved o fuel) (xs : List ModuleId) :
    ∀ (ready released : List ModuleId) (s : Machine σ κ),
      s.Gathering journal owner reserved o ready released (xs ++ rest) →
      s.modules.size + 1 ≤ fuel + 1 + ready.length →
        Gathers journal owner reserved o xs rest ready s (xs.foldl
          (fun (ready, s) x => gatherOne (gatherReady fuel) s ready x) (ready, s)) := by
  induction xs with
  | nil => exact fun ready _ s h _ => ⟨⟨_, h⟩, rfl, le_rfl, .nil s ready⟩
  | cons x xs ihxs =>
    intro ready released s h hfuel
    have hx := gatherOne_gathers ih h hfuel
    obtain ⟨released', h'⟩ := hx.gathering
    have hsize := hx.size
    have hgrown := hx.grown
    have hxs := ihxs _ _ _ h' (by omega)
    exact ⟨hxs.gathering, hxs.size.trans hsize, hgrown.trans hxs.grown,
      hx.collects.append hxs.collects⟩

theorem gatherReady_gathers (fuel : Nat) :
    GatheringsEnd (σ := σ) (κ := κ) journal owner reserved o fuel := by
  induction fuel with
  | zero =>
    intro ready released rest m s h hfuel
    have := h.length_le
    omega
  | succ fuel ih =>
    exact fun ready released rest m s h hfuel => gatherAll_gathers ih _ _ _ _ h hfuel

end Machine

end ModuleGraph

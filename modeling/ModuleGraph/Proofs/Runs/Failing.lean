import ModuleGraph.Proofs.Evaluation.Failing
import ModuleGraph.Proofs.Runs.Evaluate

/-! # Failures of a run

The work of a module that waited comes to an end, and the promise that answers for it is told. A
module that fails takes all modules that wait for it along: each of them requests, directly or not,
whoever has thrown, and none of them has run. -/

namespace ModuleGraph

open Relation

variable {σ κ : Type} {journal : σ → Journal} {owner : κ → ModuleId} {reserved : Set PromiseId}
variable {hosts : Set (Host σ κ)} {host : Host σ κ}

def Focus.tell (o : Focus) (m : ModuleId) (c? : Option Capability) : Focus :=
  { o with late := (c?.map (m, ·)).toList ++ o.late }

theorem Focus.mem_tell {o : Focus} {m x : ModuleId} {c? : Option Capability} {c : Capability} :
    (x, c) ∈ (o.tell m c?).late ↔ x = m ∧ c? = some c ∨ (x, c) ∈ o.late := by
  cases c? with
  | none => simp [tell]
  | some d => simp [tell, eq_comm]

theorem Focus.isLate_tell {o : Focus} {m x : ModuleId} {c? : Option Capability} (hx : x ≠ m) :
    (o.tell m c?).IsLate x ↔ o.IsLate x := by
  simp only [IsLate, mem_tell, hx, false_and, false_or]

theorem Focus.isLate_of_tell {o : Focus} {m x : ModuleId} {c? : Option Capability}
    (hx : o.IsLate x) : (o.tell m c?).IsLate x := hx.imp fun _ hc => mem_tell.2 (.inr hc)

theorem Focus.Idle.tell {o : Focus} (h : o.Idle) {m : ModuleId} {c? : Option Capability} :
    (o.tell m c?).Idle := ⟨h.busy, h.leaf, h.linked⟩

/-- An update with which the asynchronous work of a module comes to its end. -/
structure Cyclic.Ends (f : Cyclic → Cyclic) : Prop where
  status : ∀ c, (f c).status = .evaluated
  order : ∀ c, (f c).order = .done
  root : ∀ c, (f c).root = c.root
  kept : ∀ c, (f c).capability = c.capability ∧ (f c).requested = c.requested

theorem Cyclic.ends_complete :
    Cyclic.Ends fun c => { c with order := .done, status := .evaluated } :=
  ⟨fun _ => rfl, fun _ => rfl, fun _ => rfl, fun _ => ⟨rfl, rfl⟩⟩

theorem Cyclic.ends_fail (e : Value) : Cyclic.Ends fun c => { c.fail e with order := .done } :=
  ⟨fun _ => rfl, fun _ => rfl, fun _ => rfl, fun _ => ⟨rfl, rfl⟩⟩

namespace Machine

variable {s s' s'' : Machine σ κ} {o : Focus} {a : Agenda} {m x : ModuleId} {c : Capability}
variable {e : Value}
variable {ready released debt doom : List ModuleId} {f : Cyclic → Cyclic}

/-! ## The end of a module that waited -/

/-- The promise of a module whose work has come to its end is told next. -/
theorem Coherent.ends (h : s.Coherent journal owner reserved o)
    (hshaped : (s.graph journal a).Shaped m) (hm : (s.cyclic m).status = .evaluatingAsync)
    (hf : Cyclic.Ends f) {excused : List ModuleId}
    (hexcused : ∀ x, x ≠ m → (x ∈ excused ↔ x ∈ o.excused))
    (hdone : m ∈ o.excused ∨ m ∉ excused ∧ ∀ c, (f c).error ≠ none) :
    (s.updateCyclic m f).Coherent journal owner reserved
      { o.tell m (s.cyclic m).capability with excused } := by
  have hmi : ¬(s.cyclic m).status.IsIdle := Status.awake_of_evaluatingAsync hm
  have hr := refields_updateCyclic s m hf.kept
  have hfields := fields_updateCyclic (has_of_awake hmi) (isCyclic_of_awake hmi) f
  have hself : (s.updateCyclic m f).cyclic m = f (s.cyclic m) := by
    rw [hfields, Function.update_self]
  have hother : ∀ {x}, x ≠ m → (s.updateCyclic m f).cyclic x = s.cyclic x := fun hx => by
    rw [hfields, Function.update_of_ne hx]
  have hroot : ∀ x, ((s.updateCyclic m f).cyclic x).root = (s.cyclic x).root := fun x => by
    by_cases ex : x = m
    · rw [ex, hself, hf.root]
    · rw [hother ex]
  refine h.refields hr ?begun ?due rfl (fun _ hp => hp) rfl ?linked (fun f' hf' =>
    hr.shows (fun x q hx => (hroot x).trans hx) ?failed (h.known f' hf')) ?own ?unasked ?late ?tells
  case begun =>
    intro x hx
    obtain ⟨⟨hc, ho, hp⟩, he, hxe⟩ := hx
    by_cases ex : x = m
    · subst ex
      obtain ⟨hmem, hfailed⟩ := hdone.resolve_left hxe
      refine ⟨⟨by rwa [hr.isCyclic], ?_, ?_⟩, ?_, hmem⟩ <;> rw [hself, hf.order]
      · rintro ⟨⟩
      · rintro ⟨⟩
      · exact fun _ => hfailed _
    · rw [← hother ex] at ho hp he
      exact ⟨⟨by rwa [hr.isCyclic], ho, hp⟩, he, fun hx => hxe ((hexcused x ex).1 hx)⟩
  case due =>
    intro x hx
    obtain ⟨ho, he, hp, hxe⟩ := hx
    have ex : x ≠ m := by
      rintro rfl
      rw [hself, hf.order] at ho
      cases ho
    rw [hother ex] at ho he hp
    exact ⟨ho, he, hp, fun hx => hxe ((hexcused x ex).2 hx)⟩
  case linked =>
    intro hl hst
    refine LinkClosed.foldl (fun c => (hf.kept c).2) (fun c _ => ?_) [m] (h.linked hl hst)
      fun x hx => ?_
    · rw [hf.status]
      trivial
    · rw [List.mem_singleton.1 hx]
      exact isLinked_of_awake hmi
  case failed =>
    intro x
    by_cases ex : x = m
    · obtain ⟨he, hroot', -⟩ := hshaped.waiting hm
      rw [ex, hroot]
      exact .inr ⟨he, .inl hroot'⟩
    · exact .inl (by rw [hother ex])
  case own =>
    intro x c hx
    rw [hroot]
    exact h.own x c hx
  case unasked =>
    intro x hx
    have ex : x ≠ m := by
      rintro rfl
      rw [hself, hf.status] at hx
      obtain hx | hx := hx
      · exact hx
      · cases hx
    rw [hother ex] at hx
    exact (h.unasked x hx).imp id (Focus.isLate_tell ex).2
  case late =>
    intro x c hx
    obtain ⟨rfl, hx⟩ | hx := Focus.mem_tell.1 hx
    · exact hx
    · exact h.late x c hx
  case tells =>
    intro x c hx hres
    have ht := h.tells x c hx hres
    by_cases ex : x = m
    · subst ex
      have hl : (o.tell x (s.cyclic x).capability).IsLate x :=
        ⟨c, Focus.mem_tell.2 (.inl ⟨rfl, hx⟩)⟩
      refine ⟨fun _ => ?_, fun hn => (hn hl).elim, fun hn => (hn hl).elim⟩
      rw [Undecided, hr.promise_eq]
      exact ht.waiting (.inr (by rw [hm]; rintro ⟨⟩))
    · exact ht.quiet (hother ex) (Focus.isLate_tell ex) (fun v hv => by rw [hr.promise_eq, hv])
        fun hd => by rwa [Undecided, hr.promise_eq]

structure Working (journal : σ → Journal) (owner : κ → ModuleId) (reserved : Set PromiseId)
    (o : Focus) (ready released debt doom : List ModuleId) (s : Machine σ κ) : Prop where
  sound : (s.graph journal (.run ready released debt doom)).Sound
  coherent : s.Coherent journal owner reserved o
  idle : o.Idle
  late : ∀ x, o.IsLate x → (s.cyclic x).status = .evaluated

namespace Working

/-- A module that evaluation has touched waits or is evaluated. -/
theorem awake (h : s.Working journal owner reserved o ready released debt doom)
    (hx : ¬(s.cyclic x).status.IsIdle) :
    (s.cyclic x).status = .evaluatingAsync ∨ (s.cyclic x).status = .evaluated :=
  (Status.cases_awake hx).resolve_left fun e => nomatch (h.sound.open_iff x).1 e

theorem not_late (h : s.Working journal owner reserved o ready released debt doom)
    (hx : (s.cyclic x).status = .evaluatingAsync) : ¬o.IsLate x := fun hl => by
  rw [h.late x hl] at hx
  cases hx

theorem late_tell (h : s.Working journal owner reserved o ready released debt doom)
    {c? : Option Capability}
    (hs : ∀ x, (s.cyclic x).status = .evaluated → (s'.cyclic x).status = .evaluated)
    (hm : (s'.cyclic m).status = .evaluated) (hx : (o.tell m c?).IsLate x) :
    (s'.cyclic x).status = .evaluated := by
  by_cases ex : x = m
  · rw [ex]
    exact hm
  · exact hs x (h.late x ((Focus.isLate_tell ex).1 hx))

theorem quiet (h : s.Working journal owner reserved o ready released debt doom)
    (hq : s.Quiet journal s') {o' : Focus} (hc : s'.Coherent journal owner reserved o')
    (hi : o'.Idle) (hl : ∀ x, o'.IsLate x → o.IsLate x) :
      s'.Working journal owner reserved o' ready released debt doom := by
  refine ⟨hq.sound h.sound, hc, hi, fun x hx => ?_⟩
  have hs := h.late x (hl x hx)
  rw [hq.awake (Status.awake_of_evaluated hs), hs]

end Working

/-! ## Failing together -/

theorem grows_at_rest {a a' : Agenda} (h : (s.graph journal a).Grows (s'.graph journal a')) :
    (s.graph journal .rest).Grows (s'.graph journal .rest) := by
  have h₀ : (s.graph journal .rest).Grows (s.graph journal a) := .of_fields rfl rfl rfl rfl
  have h₁ : (s'.graph journal a').Grows (s'.graph journal .rest) := .of_fields rfl rfl rfl rfl
  exact h₀.trans (h.trans h₁)

/-- Some modules that waited have failed, and nothing else has changed. -/
structure Fails (journal : σ → Journal) (s s' : Machine σ κ) : Prop where
  grows : (s.graph journal .rest).Grows (s'.graph journal .rest)
  size : s'.modules.size = s.modules.size
  cases : ∀ x, s'.cyclic x = s.cyclic x ∨ (s.cyclic x).status = .evaluatingAsync ∧
    ∃ e, s'.cyclic x = { (s.cyclic x).fail e with order := .done }

namespace Fails

theorem refl (s : Machine σ κ) : s.Fails journal s :=
  ⟨.of_fields rfl rfl rfl rfl, rfl, fun _ => .inl rfl⟩

theorem trans (h : s.Fails journal s') (h' : s'.Fails journal s'') : s.Fails journal s'' := by
  refine ⟨h.grows.trans h'.grows, h'.size.trans h.size, fun x => ?_⟩
  obtain e₂ | ⟨hs₂, d, e₂⟩ := h'.cases x <;> obtain e₁ | ⟨hs₁, d', e₁⟩ := h.cases x
  · exact .inl (e₂.trans e₁)
  · exact .inr ⟨hs₁, d', e₂.trans e₁⟩
  · exact .inr ⟨e₁ ▸ hs₂, d, e₁ ▸ e₂⟩
  · rw [e₁] at hs₂
    cases hs₂

theorem of_beside (hb : s.Beside journal s') (hq : s.Quiet journal s')
    {a : Agenda} (hs : (s.graph journal a).Sound) : s.Fails journal s' :=
  ⟨grows_at_rest ((hq.undisturbed a hs).grows hs), by rw [hb.modules], fun x => .inl (by
    rw [cyclic, cyclic?, module, hb.modules]
    rfl)⟩

theorem kept (h : s.Fails journal s') (hx : (s.cyclic x).status = .evaluated) :
    s'.cyclic x = s.cyclic x := by
  obtain e | ⟨hs, -⟩ := h.cases x
  · exact e
  · rw [hs] at hx
    cases hx

theorem evaluated (h : s.Fails journal s') (hx : (s.cyclic x).status = .evaluated) :
    (s'.cyclic x).status = .evaluated := by
  rw [h.kept hx, hx]

theorem failed (h : s.Fails journal s') (hx : (s.cyclic x).error ≠ none) :
    (s'.cyclic x).error ≠ none := by
  obtain e | ⟨-, d, e⟩ := h.cases x
  · rwa [e]
  · rw [e]
    exact fun e => nomatch e

theorem turn (h : s.Fails journal s') {k : Nat} (hk : (s'.cyclic x).order = .turn k) :
    (s.cyclic x).order = .turn k := by
  obtain e | ⟨-, d, e⟩ := h.cases x
  · rwa [e] at hk
  · rw [e] at hk
    cases hk

theorem field {β : Type} (h : s.Fails journal s') (φ : Cyclic → β)
    (hφ : ∀ c e, φ { c.fail e with order := .done } = φ c) (x : ModuleId) :
    φ (s'.cyclic x) = φ (s.cyclic x) := by
  obtain e | ⟨-, d, e⟩ := h.cases x
  · rw [e]
  · rw [e, hφ]

end Fails

def unfinished (s : Machine σ κ) : Nat :=
  ((Finset.range s.modules.size).filter fun i => (s.cyclic ⟨i⟩).status ≠ .evaluated).card

theorem unfinished_le_size (s : Machine σ κ) : s.unfinished ≤ s.modules.size :=
  (Finset.card_filter_le _ _).trans_eq (Finset.card_range _)

section Unfinished

variable (hsize : s'.modules.size = s.modules.size)
variable (hkept : ∀ x, (s.cyclic x).status = .evaluated → (s'.cyclic x).status = .evaluated)
include hsize hkept

theorem unfinished_le : s'.unfinished ≤ s.unfinished := by
  rw [unfinished, unfinished, hsize]
  exact Finset.card_le_card (Finset.monotone_filter_right _ fun _ _ hi hx => hi (hkept _ hx))

/-- A module that was not evaluated and is so now is not counted any more. -/
theorem unfinished_lt (hm : s.Has m) (hs : (s.cyclic m).status ≠ .evaluated)
    (hs' : (s'.cyclic m).status = .evaluated) : s'.unfinished < s.unfinished := by
  rw [unfinished, unfinished, hsize]
  refine Finset.card_lt_card (Finset.ssubset_iff_subset_ne.2 ⟨?_, fun he => ?_⟩)
  · exact Finset.monotone_filter_right _ fun _ _ hi hx => hi (hkept _ hx)
  · have hmem : m.index ∈ (Finset.range s.modules.size).filter fun i =>
        (s.cyclic ⟨i⟩).status ≠ .evaluated := Finset.mem_filter.2 ⟨Finset.mem_range.2 hm, hs⟩
    rw [← he] at hmem
    exact (Finset.mem_filter.1 hmem).2 hs'

end Unfinished

theorem Fails.unfinished_le (h : s.Fails journal s') : s'.unfinished ≤ s.unfinished :=
  Machine.unfinished_le h.size fun _ => h.evaluated

theorem Fails.unfinished_lt (h : s.Fails journal s') (hm : s.Has m)
    (hs : (s.cyclic m).status ≠ .evaluated) (hs' : (s'.cyclic m).status = .evaluated) :
    s'.unfinished < s.unfinished :=
  Machine.unfinished_lt h.size (fun _ => h.evaluated) hm hs hs'

structure Failing (journal : σ → Journal) (s : Machine σ κ) (e : Value) (m : ModuleId) : Prop where
  blames : s.Blames journal m e
  waits : (s.cyclic m).status = .evaluatingAsync ∨ (s.cyclic m).error ≠ none

theorem Failing.fails (hm : s.Failing journal e m) (h : s.Fails journal s') :
    s'.Failing journal e m := by
  refine ⟨Graph.Blames.grows hm.blames h.grows, ?_⟩
  obtain e | ⟨-, d, e⟩ := h.cases m
  · rw [e]
    exact hm.waits
  · rw [e]
    exact .inr fun e => nomatch e

structure FailedAll (journal : σ → Journal) (owner : κ → ModuleId) (reserved : Set PromiseId)
    (o : Focus) (ready released debt doom xs : List ModuleId) (s s' : Machine σ κ) : Prop extends
    s'.Working journal owner reserved o ready released debt doom, s.Fails journal s' where
  all : ∀ x ∈ xs, (s'.cyclic x).error ≠ none

def FailuresEnd (journal : σ → Journal) (owner : κ → ModuleId) (reserved : Set PromiseId)
    (host : Host σ κ) (fuel : Nat) : Prop :=
  ∀ (o : Focus) (ready released debt doom : List ModuleId) (m : ModuleId) (e : Value)
    (s : Machine σ κ), s.Working journal owner reserved o ready released debt doom →
    s.Failing journal e m → s.unfinished < fuel →
      s.FailedAll journal owner reserved o ready released debt doom [m]
        (s.failWaiting host fuel m e)

theorem failParents_ends {fuel : Nat} (ih : FailuresEnd journal owner reserved host fuel)
    (xs : List ModuleId) : ∀ s : Machine σ κ,
      s.Working journal owner reserved o ready released debt doom →
      (∀ x ∈ xs, s.Failing journal e x) → s.unfinished < fuel →
        s.FailedAll journal owner reserved o ready released debt doom xs
          (xs.foldl (fun s x => s.failWaiting host fuel x e) s) := by
  induction xs with
  | nil => exact fun s h _ _ => ⟨h, .refl s, fun _ hx => nomatch hx⟩
  | cons x rest ihx =>
    intro s h hxs hfuel
    have hx := ih o ready released debt doom x e s h (hxs x List.mem_cons_self) hfuel
    have hrest := ihx _ hx.toWorking
      (fun y hy => (hxs y (List.mem_cons_of_mem _ hy)).fails hx.toFails)
      (hx.toFails.unfinished_le.trans_lt hfuel)
    refine ⟨hrest.toWorking, hx.toFails.trans hrest.toFails, fun y hy => ?_⟩
    obtain rfl | hy := List.mem_cons.1 hy
    · exact hrest.toFails.failed (hx.all y (List.mem_singleton_self y))
    · exact hrest.all y hy

/-- A module that waits for another one that waits can fail with it. -/
theorem Working.failing_parent (h : s.Working journal owner reserved o ready released debt doom)
    (hm : s.Failing journal e m) (hs : (s.cyclic m).status = .evaluatingAsync)
    (hx : x ∈ (s.cyclic m).parents) : s.Failing journal e x := by
  have ha := h.sound.awaits m x hx
  refine ⟨Graph.Blames.of_reach hm.blames ha.reach, (h.awake ha.awake).imp id fun hxs he => ?_⟩
  have hstarts := ((h.sound.shaped x).complete hxs he).2.2.1
  have hcomplete : (s.cyclic m).status = .evaluated :=
    (ha.started (by rw [hstarts]; exact one_ne_zero)).1
  rw [hs] at hcomplete
  cases hcomplete

theorem Working.fail (h : s.Working journal owner reserved o ready released debt doom)
    (hm : s.Failing journal e m) (hs : (s.cyclic m).status = .evaluatingAsync) :
    (s.updateCyclic m fun c => { c.fail e with order := .done }).Working journal owner reserved
        (o.tell m (s.cyclic m).capability) ready released debt ((s.cyclic m).parents ++ doom) ∧
      s.Fails journal (s.updateCyclic m fun c => { c.fail e with order := .done }) ∧
      (s.updateCyclic m fun c => { c.fail e with order := .done }).cyclic m =
        { (s.cyclic m).fail e with order := .done } := by
  set s' := s.updateCyclic m fun c => { c.fail e with order := .done } with hs'
  have hmi : ¬(s.cyclic m).status.IsIdle := Status.awake_of_evaluatingAsync hs
  have hfields := fields_updateCyclic (has_of_awake hmi) (isCyclic_of_awake hmi)
    fun c => { c.fail e with order := .done }
  have hgraph : s'.graph journal (.run ready released debt ((s.cyclic m).parents ++ doom)) =
      (s.graph journal (.run ready released debt doom)).fail m e released := by
    rw [hs', graph_updateCyclic (has_of_awake hmi) (isCyclic_of_awake hmi)
      (Cyclic.ends_fail e).kept]
    rfl
  have hself : s'.cyclic m = { (s.cyclic m).fail e with order := .done } := by
    rw [hs', hfields, Function.update_self]
  have hcases : ∀ x, s'.cyclic x = s.cyclic x ∨ (s.cyclic x).status = .evaluatingAsync ∧
      ∃ e, s'.cyclic x = { (s.cyclic x).fail e with order := .done } := by
    intro x
    by_cases ex : x = m
    · rw [ex]
      exact .inr ⟨hs, e, hself⟩
    · rw [hs', hfields, Function.update_of_ne ex]
      exact .inl rfl
  have hfails : s.Fails journal s' :=
    ⟨grows_at_rest (hgraph ▸ Graph.grows_fail h.sound hs e released), size_updateModule .., hcases⟩
  have hblame : (s.graph journal (.run ready released debt doom)).Blames m e := hm.blames
  refine ⟨⟨?_, ?_, h.idle.tell, fun x hx => ?_⟩, hfails, hself⟩
  · rw [hgraph]
    exact h.sound.fail e hs hblame fun _ _ => Iff.rfl
  · exact h.coherent.ends (h.sound.shaped m) hs (Cyclic.ends_fail e) (fun _ _ => .rfl)
      ((em _).imp id fun hm => ⟨hm, fun _ e => nomatch e⟩)
  · exact h.late_tell (fun x => hfails.evaluated) (by rw [hself]; rfl) hx

/-- A module fails together with all modules that wait for it. -/
theorem failWaiting_ends (hc : Conduct journal owner reserved hosts) (hh : host ∈ hosts)
    (fuel : Nat) : FailuresEnd journal owner reserved host fuel := by
  induction fuel with
  | zero => exact fun _ _ _ _ _ _ _ _ _ _ hfuel => absurd hfuel (Nat.not_lt_zero _)
  | succ fuel ih =>
    intro o ready released debt doom m e s h hm hfuel
    rw [failWaiting]
    split
    · rename_i hs
      refine ⟨h, .refl s, fun x hx => ?_⟩
      rw [List.mem_singleton.1 hx]
      exact hm.waits.resolve_left (by rw [hs]; exact fun e => nomatch e)
    rename_i hs
    have hwaits : (s.cyclic m).status = .evaluatingAsync :=
      hm.waits.resolve_right fun he => hs ((h.sound.shaped m).evaluated_of_failed he)
    obtain ⟨hw₁, hf₁, hself⟩ := h.fail hm hwaits
    set s₁ := s.updateCyclic m fun c => { c.fail e with order := .done } with hs₁
    have hlt : s₁.unfinished < s.unfinished :=
      hf₁.unfinished_lt (has_of_awake (Status.awake_of_evaluatingAsync hwaits)) hs
        (by rw [hself]; rfl)
    -- The parents fail one after the other; then none of them has to fail any more.
    have hparents := failParents_ends ih (s.cyclic m).parents s₁ hw₁
      (fun x hx => (h.failing_parent hm hwaits hx).fails hf₁) (by omega)
    set s₂ := (s.cyclic m).parents.foldl (fun s x => s.failWaiting host fuel x e) s₁ with hs₂
    have hself₂ : s₂.cyclic m = { (s.cyclic m).fail e with order := .done } := by
      rw [hparents.kept (by rw [hself]; rfl), hself]
    have hw₂ : s₂.Working journal owner reserved (o.tell m (s.cyclic m).capability) ready released
        debt doom := by
      refine { hparents.toWorking with sound := hparents.sound.spare fun x hx => ?_ }
      exact (List.mem_append.1 hx).imp (hparents.all x) id
    have hf₂ := hf₁.trans hparents.toFails
    have hm₂ : (s₂.cyclic m).error ≠ none := by
      rw [hself₂]
      exact fun e => nomatch e
    split
    · rename_i c hcap
      rw [hcap] at hw₂
      have hset : s₂.Settles journal (s₂.reject host.track c e) c.promise :=
        reject_settles _ (hc.track host hh) c e
      have hcoh := hw₂.coherent.rejected hc hh
        (show _ = (m, c) :: o.late from rfl) (fun d hd => h.not_late hwaits ⟨d, hd⟩)
          (by rw [hself₂]; rfl) (by rw [hself₂]; rfl)
      refine ⟨hw₂.quiet hset.quiet hcoh h.idle fun x hx => ?_, hf₂.trans (.of_beside hset.beside
        hset.quiet hw₂.sound), fun x hx => ?_⟩
      · exact Focus.isLate_of_tell hx
      · rw [List.mem_singleton.1 hx]
        exact (Fails.of_beside hset.beside hset.quiet hw₂.sound).failed hm₂
    · rename_i hcap
      rw [hcap] at hw₂
      refine ⟨hw₂, hf₂, fun x hx => ?_⟩
      rw [List.mem_singleton.1 hx]
      exact hm₂

theorem bodyFailed_ends (hc : Conduct journal owner reserved hosts) (hh : host ∈ hosts)
    (h : s.Working journal owner reserved o ready released debt doom) (hm : s.Failing journal e m) :
    s.FailedAll journal owner reserved o ready released debt doom [m] (s.bodyFailed host m e) :=
  failWaiting_ends hc hh _ _ _ _ _ _ _ _ _ h hm (Nat.lt_succ_of_le s.unfinished_le_size)

end Machine

end ModuleGraph

import ModuleGraph.Proofs.Runs.Bare
import ModuleGraph.Proofs.Runs.Evaluate

/-! # Links of a run

Linking changes modules that are not evaluated only, and of these neither the fields of evaluation
nor the leaves that were evaluated. The rest of what it does are calls of the host. Afterwards
whatever is linked can run, and so can all that it requests. -/

namespace ModuleGraph

open Relation

variable {σ κ : Type} {journal : σ → Journal} {owner : κ → ModuleId} {reserved : Set PromiseId}
variable {hosts : Set (Host σ κ)} {host : Host σ κ}

structure Cyclic.Relinked (c c' : Cyclic) : Prop where
  idle : c'.status.IsIdle
  error : c'.error = c.error
  root : c'.root = c.root
  order : c'.order = c.order
  parents : c'.parents = c.parents
  capability : c'.capability = c.capability
  pending : c'.pending = c.pending
  requested : c'.requested = c.requested

theorem Cyclic.relinked_status (c : Cyclic) (status : Status) (h : status.IsIdle)
    (visit ancestor : Option Nat) : c.Relinked { c with status, visit, ancestor } :=
  ⟨h, rfl, rfl, rfl, rfl, rfl, rfl, rfl⟩

inductive ModuleKind.Relinks : ModuleKind → ModuleKind → Prop
  | cyclic {k k' : ModuleKind} {c c' : Cyclic} : k.cyclic? = some c → k'.cyclic? = some c' →
      c.Relinked c' → Relinks k k'
  | leaf {state state' : LeafState} : (∀ p, state ≠ .evaluated p) → (∀ p, state' ≠ .evaluated p) →
      Relinks (.leaf state) (.leaf state')

namespace Machine

variable {s s' s'' : Machine σ κ} {m n x : ModuleId} {a : Agenda} {f : ModuleKind → ModuleKind}
variable {known : Finding → Prop} {spare : PromiseId → Prop}

/-- No evaluation is going on and no body is running, but modules may be between two stages of
linking. -/
structure Relinking (journal : σ → Journal) (owner : κ → ModuleId) (reserved : Set PromiseId)
    (known : Finding → Prop) (spare : PromiseId → Prop) (s : Machine σ κ) : Prop where
  sound : (s.graph journal .rest).Sound
  coherent : s.Coherent journal owner reserved { Focus.rest known spare with linking := True }

theorem Coherent.setLinking {o : Focus} (h : s.Coherent journal owner reserved o) {l : Prop}
    (hl : ¬l → (journal s.host).Stable → s.LinkClosed journal) :
    s.Coherent journal owner reserved { o with linking := l } :=
  { h with
    linked := hl
    tells := fun m c hm hres => (h.tells m c hm hres).quiet rfl .rfl (fun _ hv => hv) id }

theorem Resting.relinking (h : s.Resting journal owner reserved known spare) :
    s.Relinking journal owner reserved known spare :=
  ⟨h.sound, h.coherent.setLinking fun hl => (hl trivial).elim⟩

theorem Relinking.resting (h : s.Relinking journal owner reserved known spare)
    (hl : (journal s.host).Stable → s.LinkClosed journal) :
    s.Resting journal owner reserved known spare :=
  ⟨h.sound, h.coherent.setLinking fun _ => hl⟩

inductive LinkStep (journal : σ → Journal) (reserved : Set PromiseId) (hosts : Set (Host σ κ)) :
    Machine σ κ → Machine σ κ → Prop
  | call {s s' : Machine σ κ} : Call journal reserved hosts s s' →
      LinkStep journal reserved hosts s s'
  | update {s : Machine σ κ} {m : ModuleId} {f : ModuleKind → ModuleKind} :
      (s.cyclic m).status.IsIdle → (s.module m).kind.Relinks (f (s.module m).kind) →
        LinkStep journal reserved hosts s (s.updateKind m f)

abbrev LinkSteps (journal : σ → Journal) (reserved : Set PromiseId) (hosts : Set (Host σ κ)) :
    Machine σ κ → Machine σ κ → Prop := ReflTransGen (LinkStep journal reserved hosts)

/-! ## Going to another stage of linking -/

theorem leaf?_of_cyclic? {k : ModuleKind} {c : Cyclic} (h : k.cyclic? = some c) :
    k.leaf? = none := by
  cases k with
  | leaf state => cases h
  | source r env c => rfl
  | foreign i c => rfl

theorem isCyclic_relinks {k k' : ModuleKind} (h : k.Relinks k') :
    k'.cyclic?.isSome = k.cyclic?.isSome := by
  cases h with
  | cyclic hc hc' _ => rw [hc, hc']; rfl
  | leaf _ _ => rfl

theorem evaluated_relinks {k k' : ModuleKind} (h : k.Relinks k') (p : PromiseId) :
    k'.leaf? = some (.evaluated p) ↔ k.leaf? = some (.evaluated p) := by
  cases h with
  | cyclic hc hc' _ => rw [leaf?_of_cyclic? hc, leaf?_of_cyclic? hc']
  | leaf hs hs' =>
    exact iff_of_false (fun e => hs' p (Option.some.inj e)) fun e => hs p (Option.some.inj e)

/-- Each module stays as it is, or is idle and goes to another stage. -/
theorem relinked (hi : (s.cyclic m).status.IsIdle)
    (h : (s.module m).kind.Relinks (f (s.module m).kind)) (x : ModuleId) :
    (s.updateKind m f).cyclic x = s.cyclic x ∨
      (s.cyclic x).status.IsIdle ∧ (s.cyclic x).Relinked ((s.updateKind m f).cyclic x) := by
  by_cases hm : s.Has m
  · rw [cyclic, cyclic?_eq, kind_updateKind f hm]
    split
    · rename_i e
      subst e
      rw [cyclic, cyclic?_eq] at hi ⊢
      generalize (s.module x).kind = k at *
      generalize f k = k' at *
      cases h with
      | cyclic hc hc' hr =>
        rw [hc] at hi ⊢
        rw [hc']
        exact .inr ⟨hi, hr⟩
      | leaf hs hs' => exact .inl rfl
    · exact .inl rfl
  · rw [updateKind, updateModule_of_not_has _ hm]
    exact .inl rfl

theorem refields_relink (hi : (s.cyclic m).status.IsIdle)
    (h : (s.module m).kind.Relinks (f (s.module m).kind)) : s.Refields (s.updateKind m f) := by
  by_cases hm : s.Has m
  · refine ⟨by simp [updateKind], fun x => ?_, fun x p => ?_, fun x => ?_, fun x => ?_,
      rfl, rfl, rfl, rfl, rfl, rfl, rfl⟩
    · rw [isCyclic, isCyclic, cyclic?_eq, cyclic?_eq, kind_updateKind f hm]
      split
      · rename_i e
        rw [e]
        exact isCyclic_relinks h
      · rfl
    · rw [kind_updateKind f hm]
      split
      · rename_i e
        rw [e]
        exact evaluated_relinks h p
      · rfl
    · exact (relinked hi h x).elim (fun e => by rw [e]) fun hr => hr.2.capability
    · exact (relinked hi h x).elim (fun e => by rw [e]) fun hr => hr.2.requested
  · rw [updateKind, updateModule_of_not_has _ hm]
    exact .refl s

section Relinked

variable (hi : (s.cyclic m).status.IsIdle) (hr : (s.module m).kind.Relinks (f (s.module m).kind))
include hi hr

theorem field_relink {β : Type} (φ : Cyclic → β) (hφ : ∀ c c', Cyclic.Relinked c c' → φ c' = φ c)
    (x : ModuleId) : φ ((s.updateKind m f).cyclic x) = φ (s.cyclic x) := by
  obtain e | ⟨-, hx⟩ := relinked hi hr x
  · rw [e]
  · exact hφ _ _ hx

theorem cyclic_relink_of_awake (hx : ¬(s.cyclic x).status.IsIdle) :
    (s.updateKind m f).cyclic x = s.cyclic x :=
  (relinked hi hr x).resolve_right fun e => hx e.1

theorem idle_relink (hx : (s.cyclic x).status.IsIdle) :
    ((s.updateKind m f).cyclic x).status.IsIdle := by
  obtain e | ⟨-, hr⟩ := relinked hi hr x
  · rwa [e]
  · exact hr.idle

theorem sound_relink (hs : (s.graph journal .rest).Sound) :
    ((s.updateKind m f).graph journal .rest).Sound := by
  refine Graph.Undisturbed.sound hs ?_
  rw [(refields_relink hi hr).graph_eq]
  exact
    { noted := fun _ he => he
      leaf := fun _ hl => hl
      threw := fun _ _ ht => ht
      requested := fun x r hx => by
        change r ∈ ((s.updateKind m f).cyclic x).requested
        rwa [field_relink hi hr (·.requested) fun _ _ hr => hr.requested]
      idle := fun x hx => by
        obtain ⟨⟨he, hroot, ho, hp⟩, hstarts⟩ := (hs.shaped x).idle hx
        refine ⟨idle_relink hi hr hx, ⟨?_, ?_, ?_, ?_⟩, hstarts⟩
        · exact (field_relink hi hr (·.error) (fun _ _ hr => hr.error) x).trans he
        · exact (field_relink hi hr (·.root) (fun _ _ hr => hr.root) x).trans hroot
        · exact (field_relink hi hr (·.order) (fun _ _ hr => hr.order) x).trans ho
        · exact (field_relink hi hr (·.parents) (fun _ _ hr => hr.parents) x).trans hp
      awake := fun x hx => ⟨⟨_, _, cyclic_relink_of_awake hi hr hx⟩, rfl⟩
      size := le_rfl
      nextTurn := rfl
      stack := rfl
      ready := rfl
      released := rfl
      debt := rfl
      doom := rfl }

end Relinked

/-- Going to another stage of linking disturbs no evaluation, and nobody is told of it. -/
theorem Relinking.relink (h : s.Relinking journal owner reserved known spare)
    (hi : (s.cyclic m).status.IsIdle) (hr : (s.module m).kind.Relinks (f (s.module m).kind)) :
    (s.updateKind m f).Relinking journal owner reserved known spare := by
  have hrefields := refields_relink hi hr
  have hroot := field_relink hi hr (·.root) fun _ _ hr => hr.root
  have horder := field_relink hi hr (·.order) fun _ _ hr => hr.order
  have herror := field_relink hi hr (·.error) fun _ _ hr => hr.error
  have hpending := field_relink hi hr (·.pending) fun _ _ hr => hr.pending
  refine ⟨sound_relink hi hr h.sound, h.coherent.refields hrefields (fun x hx => ?_)
    (fun x hx => ?_) rfl (fun _ hp => hp) rfl (fun hl => (hl trivial).elim)
    (fun f hf => hrefields.shows (fun x q hx => ?_) (fun x => .inl (herror x))
      (h.coherent.known f hf))
    (fun x c hx => ?_) (fun x hx => ?_) (fun _ _ hx => nomatch hx) fun x c hx hres => ?_⟩
  · exact hrefields.mayTell (.inl ⟨horder x, herror x, hpending x⟩) hx
  · rwa [Due, horder, herror, hpending] at hx
  · rwa [hroot]
  · rw [hroot]
    exact h.coherent.own x c hx
  · by_cases hi' : (s.cyclic x).status.IsIdle
    · exact h.coherent.unasked x (.inl hi')
    · rw [cyclic_relink_of_awake hi hr hi'] at hx
      exact h.coherent.unasked x hx
  · have hx' : ¬(s.cyclic x).status.IsIdle := fun hi' => by
      obtain hn | ⟨_, hl⟩ := h.coherent.unasked x (.inl hi')
      · rw [hn] at hx
        cases hx
      · cases hl
    exact (h.coherent.tells x c hx hres).quiet (cyclic_relink_of_awake hi hr hx') Iff.rfl
      (fun v hv => by rw [hrefields.promise_eq, hv]) fun hd => by
        rwa [Undecided, hrefields.promise_eq]

theorem Resting.call (hc : Conduct journal owner reserved hosts)
    (h : s.Resting journal owner reserved known spare) (hcall : Call journal reserved hosts s s') :
    s'.Resting journal owner reserved known spare :=
  ⟨(quiet_of_call hc.track hcall).sound h.sound, h.coherent.call hc.track hcall⟩

theorem Relinking.linkSteps (hc : Conduct journal owner reserved hosts)
    (h : s.Relinking journal owner reserved known spare)
    (hl : LinkSteps journal reserved hosts s s') :
    s'.Relinking journal owner reserved known spare := by
  induction hl with
  | refl => exact h
  | tail _ hstep ih =>
    cases hstep with
    | call hcall =>
      exact ⟨(quiet_of_call hc.track hcall).sound ih.sound, ih.coherent.call hc.track hcall⟩
    | update hi hr => exact ih.relink hi hr

/-! ## What a link does -/

theorem LinkSteps.of_calls (h : Calls journal reserved hosts s s') :
    LinkSteps journal reserved hosts s s' := ReflTransGen.mono (fun _ _ => .call) _ _ h

theorem LinkSteps.notes (hc : Conduct journal owner reserved hosts)
    (h : LinkSteps journal reserved hosts s s') : s.Notes journal s' := by
  induction h with
  | refl => exact .of_host rfl
  | tail _ hstep ih =>
    cases hstep with
    | call hcall => exact ih.trans fun e => (quiet_of_call hc.track hcall).mem_journal
    | update => exact ih.trans (.of_host rfl)

/-- What is not evaluated stays so during a link. -/
theorem LinkSteps.idle (hc : Conduct journal owner reserved hosts)
    (h : LinkSteps journal reserved hosts s s') (hx : (s.cyclic x).status.IsIdle) :
    (s'.cyclic x).status.IsIdle := by
  induction h with
  | refl => exact hx
  | @tail s₁ s₂ _ hstep ih =>
    cases hstep with
    | call hcall =>
      have hq := quiet_of_call hc.track hcall
      by_cases hn : s₁.Has x
      · rwa [hq.fields hn]
      · exact (hq.made x hn).idle
    | update hi hr =>
      obtain e | ⟨-, hr⟩ := relinked hi hr x
      · rwa [e]
      · exact hr.idle

structure Builds (journal : σ → Journal) (reserved : Set PromiseId) (hosts : Set (Host σ κ))
    (s s' : Machine σ κ) : Prop where
  steps : LinkSteps journal reserved hosts s s'
  has : ∀ x, s.Has x → s'.Has x
  runnable : ∀ x, s.Has x → (s.module x).kind.IsRunnable → (s'.module x).kind.IsRunnable
  linked : ∀ x, (s'.status x).IsLinked → (s.status x).IsLinked ∨ (s'.module x).kind.IsRunnable

namespace Builds

theorem refl (s : Machine σ κ) : Builds journal reserved hosts s s :=
  ⟨.refl, fun _ => id, fun _ _ => id, fun _ => .inl⟩

theorem trans (h : Builds journal reserved hosts s s') (h' : Builds journal reserved hosts s' s'') :
    Builds journal reserved hosts s s'' where
  steps := h.steps.trans h'.steps
  has x hx := h'.has x (h.has x hx)
  runnable x hx hr := h'.runnable x (h.has x hx) (h.runnable x hx hr)
  linked x hx := by
    obtain hx' | hr := h'.linked x hx
    · exact (h.linked x hx').imp id (h'.runnable x (has_of_isLinked hx'))
    · exact .inr hr

theorem of_calls (hc : Conduct journal owner reserved hosts)
    (h : Calls journal reserved hosts s s') : Builds journal reserved hosts s s' := by
  have hq := quiet_of_calls hc.track h
  exact ⟨.of_calls h, fun _ => hq.has, hq.runnable, fun x hx => .inl ((hq.linked x).1 hx)⟩

/-- A module that is not evaluated goes to another stage. -/
theorem update (hi : (s.cyclic m).status.IsIdle)
    (h : (s.module m).kind.Relinks (f (s.module m).kind))
    (hr : (s.module m).kind.IsRunnable → (f (s.module m).kind).IsRunnable)
    (hl : (f (s.module m).kind).status.IsLinked →
      (s.status m).IsLinked ∨ (f (s.module m).kind).IsRunnable) :
    Builds journal reserved hosts s (s.updateKind m f) := by
  by_cases hm : s.Has m
  · refine ⟨.single (.update hi h), fun _ => (has_updateKind f).2, fun x _ => ?_, fun x => ?_⟩
    · rw [kind_updateKind f hm]
      split
      · rename_i e
        rw [e]
        exact hr
      · exact id
    · rw [status, kind_updateKind f hm]
      split
      · rename_i e
        rw [e]
        exact hl
      · exact .inl
  · rw [updateKind, updateModule_of_not_has _ hm]
    exact .refl s

/-- A change of the fields of a module that is not evaluated. -/
theorem updateCyclic (hi : (s.cyclic m).status.IsIdle) {f : Cyclic → Cyclic}
    (hf : ∀ c : Cyclic, c.status.IsIdle → c.Relinked (f c))
    (hl : ∀ c : Cyclic, (f c).status.IsLinked → c.status.IsLinked ∨ (s.module m).kind.IsRunnable) :
    Builds journal reserved hosts s (s.updateCyclic m f) := by
  cases hc : s.cyclic? m with
  | some c =>
    rw [cyclic_of_cyclic? hc] at hi
    have hk : ((s.module m).kind.updateCyclic f).IsRunnable ↔ (s.module m).kind.IsRunnable := by
      cases (s.module m).kind <;> exact .rfl
    refine update ?_ (.cyclic hc ?_ (hf c hi)) hk.2 fun h => ?_
    · rwa [cyclic_of_cyclic? hc]
    · rw [ModuleKind.cyclic?_updateCyclic]
      exact congrArg _ hc
    · rw [hk, status_of_cyclic? hc]
      refine hl c ?_
      rw [cyclic?_eq] at hc
      cases hkind : (s.module m).kind <;> rw [hkind] at hc h <;> cases hc <;> exact h
  | none =>
    rw [updateCyclic_of_leaf f hc]
    exact .refl s

end Builds

theorem linkSteps_foldl (hc : Conduct journal owner reserved hosts)
    {step : Machine σ κ → ModuleId → Machine σ κ}
    (hstep : ∀ s x, (s.cyclic x).status.IsIdle → LinkSteps journal reserved hosts s (step s x))
    {xs : List ModuleId} (hxs : ∀ x ∈ xs, (s.cyclic x).status.IsIdle) :
    LinkSteps journal reserved hosts s (xs.foldl step s) := by
  induction xs generalizing s with
  | nil => exact .refl
  | cons x rest ih =>
    have hx := hstep s x (hxs x List.mem_cons_self)
    exact hx.trans (ih fun y hy => hx.idle hc (hxs y (List.mem_cons_of_mem x hy)))

theorem builds_foldl (hc : Conduct journal owner reserved hosts) {xs : List ModuleId}
    (hi : ∀ x ∈ xs, (s.cyclic x).status.IsIdle)
    (hr : ∀ x ∈ xs, s.Has x ∧ (s.module x).kind.IsRunnable) :
    Builds journal reserved hosts s (xs.foldl (fun s x => s.setStatus x .linked) s) := by
  induction xs generalizing s with
  | nil => exact .refl s
  | cons x rest ih =>
    have hx : Builds journal reserved hosts s (s.setStatus x .linked) :=
      .updateCyclic (hi x List.mem_cons_self)
        (fun c _ => c.relinked_status .linked trivial c.visit c.ancestor)
        fun _ _ => .inr (hr x List.mem_cons_self).2
    refine hx.trans (ih (fun y hy => ?_) fun y hy => ?_)
    · exact hx.steps.idle hc (hi y (List.mem_cons_of_mem x hy))
    · obtain ⟨hhas, hrun⟩ := hr y (List.mem_cons_of_mem x hy)
      exact ⟨hx.has y hhas, hx.runnable y hhas hrun⟩

theorem linkLeaf_builds (hc : Conduct journal owner reserved hosts) (hh : host ∈ hosts)
    {path : List String} {result : Except LinkError Unit}
    (hrun : linkLeaf host path m s = some (result, s')) : Builds journal reserved hosts s s' := by
  rw [linkLeaf, Linking.view_bind] at hrun
  by_cases hk : (s.module m).kind = .leaf .unlinked
  · rw [hk] at hrun
    obtain ⟨u, s₁, h₁, h₂⟩ | ⟨e, h₁, -⟩ := throwing_bind.1 hrun
    · obtain ⟨y, h₁, -⟩ := Linking.ofAct_eq_some.1 h₁
      cases h₂
      have hcalls := hc.linkLeaf host hh m _ _ _ h₁
      have hleaf : (s₁.module m).kind.leaf? = some .unlinked :=
        leaf?_of_calls hc hcalls (by rw [hk]; rfl)
      obtain ⟨state, hstate⟩ : ∃ state, (s₁.module m).kind = .leaf state := by
        cases hk₁ : (s₁.module m).kind with
        | leaf state => exact ⟨state, rfl⟩
        | source r env c =>
          rw [hk₁] at hleaf
          cases hleaf
        | foreign i c =>
          rw [hk₁] at hleaf
          cases hleaf
      rw [hstate] at hleaf
      cases hleaf
      refine (Builds.of_calls hc hcalls).trans (.update ?_ ?_ ?_ ?_)
      · rw [cyclic, cyclic?_eq, hstate]
        trivial
      · rw [hstate]
        exact .leaf (fun _ e => by cases e) fun _ e => by cases e
      · rw [hstate]
        exact fun _ => trivial
      · rw [hstate]
        exact fun _ => .inr trivial
    · obtain ⟨y, h₁, -⟩ := Linking.ofAct_eq_some.1 h₁
      exact .of_calls hc (hc.linkLeaf host hh m _ _ _ h₁)
  · obtain rfl : s = s' := by
      cases hk' : (s.module m).kind with
      | leaf state =>
        rw [hk'] at hrun
        cases state with
        | unlinked => exact (hk hk').elim
        | linked => cases hrun; rfl
        | evaluated p => cases hrun; rfl
      | source r env c => rw [hk'] at hrun; cases hrun; rfl
      | foreign i c => rw [hk'] at hrun; cases hrun; rfl
    exact .refl s

theorem builds_instantiate (hi : (s.cyclic m).status.IsIdle) (hasAwait : Bool) :
    Builds journal reserved hosts s (s.instantiate m hasAwait) ∧
      (s.Has m → ((s.instantiate m hasAwait).module m).kind.IsRunnable) := by
  cases hk : (s.module m).kind with
  | foreign i c =>
    refine ⟨.update hi (.cyclic (by rw [hk]; rfl) (by rw [hk]; rfl) ?_) ?_ ?_, fun hm => ?_⟩
    · rw [cyclic, cyclic?_eq, hk] at hi
      exact ⟨hi, rfl, rfl, rfl, rfl, rfl, rfl, rfl⟩
    · rw [hk]
      exact fun _ => rfl
    · rw [hk]
      exact fun _ => .inr rfl
    · rw [instantiate, kind_updateKind _ hm, if_pos rfl, hk]
      rfl
  | source r env c | leaf state =>
    rw [instantiate, updateKind_of_eq (by rw [hk]), hk]
    exact ⟨.refl s, fun _ => trivial⟩

theorem initializeModule_builds (hc : Conduct journal owner reserved hosts) (hh : host ∈ hosts)
    (hi : (s.cyclic m).status.IsIdle) (hm : s.Has m) {path : List String}
    {result : Except LinkError Unit}
    (hrun : initializeModule host path m s = some (result, s')) :
    Builds journal reserved hosts s s' ∧ (result = .ok () → (s'.module m).kind.IsRunnable) := by
  obtain ⟨s₁, hcalls, ⟨rfl, hok⟩ | ⟨hasAwait, rfl⟩⟩ := initializeModule_cases hc hh hrun
  · have hb := Builds.of_calls hc hcalls
    refine ⟨hb, fun hr => hb.runnable m hm ?_⟩
    have hrecord := hok hr
    rw [record?] at hrecord
    cases hk : (s.module m).kind with
    | source r env c => trivial
    | foreign i c => exact (hrecord (by rw [hk]; rfl)).elim
    | leaf state => trivial
  · have hb := Builds.of_calls hc hcalls
    obtain ⟨hb', hr⟩ := builds_instantiate (hb.steps.idle hc hi) hasAwait
    exact ⟨hb.trans hb', fun _ => hr (hb.has m hm)⟩

/-! ## Visits -/

variable {t t₁ t₂ t' : Traversal} {depth : Nat} {names : List String} {r : String}
variable {result : Except LinkError Unit}

/-- What a visit makes of the machine and of the stack. Modules that are put on the stack and left
there can run. -/
structure LinkedBy (journal : σ → Journal) (reserved : Set PromiseId) (hosts : Set (Host σ κ))
    (s : Machine σ κ) (t : Traversal) (result : Except LinkError Unit) (s' : Machine σ κ)
    (t' : Traversal) : Prop where
  builds : Builds journal reserved hosts s s'
  idle : ∀ x ∈ t'.stack, (s'.cyclic x).status.IsIdle
  left : result = .ok () → ∃ pre, t'.stack = pre ++ t.stack ∧
    ∀ x ∈ pre, s'.Has x ∧ (s'.module x).kind.IsRunnable

theorem LinkedBy.after (hb : Builds journal reserved hosts s s')
    (h : LinkedBy journal reserved hosts s' t result s'' t') :
    LinkedBy journal reserved hosts s t result s'' t' := ⟨hb.trans h.builds, h.idle, h.left⟩

theorem Builds.linkedBy (hc : Conduct journal owner reserved hosts)
    (hb : Builds journal reserved hosts s s') (ht : ∀ x ∈ t.stack, (s.cyclic x).status.IsIdle) :
    LinkedBy journal reserved hosts s t result s' t :=
  ⟨hb, fun x hx => hb.steps.idle hc (ht x hx), fun _ => ⟨[], rfl, fun _ hx => nomatch hx⟩⟩

theorem LinkedBy.trans (h : LinkedBy journal reserved hosts s t (.ok ()) s' t₁)
    (h' : LinkedBy journal reserved hosts s' t₁ result s'' t') :
    LinkedBy journal reserved hosts s t result s'' t' := by
  refine ⟨h.builds.trans h'.builds, h'.idle, fun hr => ?_⟩
  obtain ⟨pre, hpre, hrun⟩ := h.left rfl
  obtain ⟨pre', hpre', hrun'⟩ := h'.left hr
  refine ⟨pre' ++ pre, by rw [hpre', hpre, List.append_assoc], fun x hx => ?_⟩
  obtain hx | hx := List.mem_append.1 hx
  · exact hrun' x hx
  · obtain ⟨hhas, hx⟩ := hrun x hx
    exact ⟨h'.builds.has x hhas, h'.builds.runnable x hhas hx⟩

def VisitsLink (journal : σ → Journal) (reserved : Set PromiseId) (hosts : Set (Host σ κ))
    (host : Host σ κ) (depth : Nat) : Prop :=
  ∀ names m t s result t' s', s.Has m → (∀ x ∈ t.stack, (s.cyclic x).status.IsIdle) →
    visitLinking host depth names m t s = some ((result, t'), s') →
      LinkedBy journal reserved hosts s t result s' t'

theorem reachOpen_builds (hi : (s.cyclic m).status.IsIdle) (n : ModuleId) :
    Builds journal reserved hosts s (reachOpen m n s) := by
  rw [reachOpen]
  split
  · split
    · refine .updateCyclic hi (fun c hc => ⟨hc, rfl, rfl, rfl, rfl, rfl, rfl, rfl⟩) fun c => .inl
    · exact .refl s
  · exact .refl s

theorem requestLinking_builds (hc : Conduct journal owner reserved hosts) (hh : host ∈ hosts)
    (ih : VisitsLink journal reserved hosts host depth) (hm : (s.cyclic m).status.IsIdle)
    (hstack : ∀ x ∈ t.stack, (s.cyclic x).status.IsIdle)
    (hrun : requestLinking host depth names m r t s = some ((result, t'), s')) :
    LinkedBy journal reserved hosts s t result s' t' := by
  rw [requestLinking, visit_bind] at hrun
  obtain ⟨n, t₁, s₁, h₁, h₂⟩ | ⟨e, h₁, rfl⟩ := hrun
  · obtain ⟨rfl, hr⟩ := LinkVisit.ofLinking_eq_some.1 h₁
    obtain ⟨a, hr, ha⟩ := Linking.ofAct_eq_some.1 hr
    cases a with
    | error e => cases ha
    | ok n' =>
      cases ha
      have hb := Builds.of_calls hc (hc.resolve host hh _ _ _ _ _ hr)
      have hn := (hc.found host hh hr).1
      have hstack₁ := fun x hx => hb.steps.idle hc (hstack x hx)
      obtain ⟨_, t₂, s₂, h₃, h₄⟩ | ⟨e, h₃, rfl⟩ := visit_bind.1 h₂
      · have hv := (ih _ _ _ _ _ _ _ hn hstack₁ h₃).after hb
        cases h₄
        exact hv.trans ((reachOpen_builds (hv.builds.steps.idle hc hm) _).linkedBy hc hv.idle)
      · exact (ih _ _ _ _ _ _ _ hn hstack₁ h₃).after hb
  · obtain ⟨rfl, hr⟩ := LinkVisit.ofLinking_eq_some.1 h₁
    have hcalls := (calls_looksUp hc hh).asks.resolveRequest names m r _ _ _ hr
    exact (Builds.of_calls hc hcalls).linkedBy hc hstack

theorem requestsLinking_builds (hc : Conduct journal owner reserved hosts) (hh : host ∈ hosts)
    (ih : VisitsLink journal reserved hosts host depth) (rest : List String) :
    ∀ s t, (s.cyclic m).status.IsIdle → (∀ x ∈ t.stack, (s.cyclic x).status.IsIdle) →
      (rest.forM (requestLinking host depth names m)) t s = some ((result, t'), s') →
        LinkedBy journal reserved hosts s t result s' t' := by
  induction rest with
  | nil =>
    intro s t _ hstack hrun
    cases hrun
    exact (Builds.refl _).linkedBy hc hstack
  | cons r rest ihr =>
    intro s t hm hstack hrun
    obtain ⟨t₁, s₁, h₁, h₂⟩ | ⟨e, h₁, rfl⟩ := visit_forM_cons.1 hrun
    · have hl := requestLinking_builds hc hh ih hm hstack h₁
      exact hl.trans (ihr s₁ t₁ (hl.builds.steps.idle hc hm) hl.idle h₂)
    · exact requestLinking_builds hc hh ih hm hstack h₁

/-- What closing a cycle takes off the stack, and what is left of the part above the root. -/
theorem close_of_append (t : Traversal) (m : ModuleId) {base : List ModuleId} :
    ∀ pre, t.stack = pre ++ m :: base → (∀ x ∈ (t.close m).1, x ∈ pre ++ [m]) ∧
      ∃ rest, (t.close m).2.stack = rest ++ base ∧ ∀ x ∈ rest, x ∈ pre ++ [m] := by
  intro pre hpre
  simp only [Traversal.close, hpre]
  clear hpre
  induction pre with
  | nil => simp
  | cons a pre ih =>
    by_cases e : a = m
    · subst e
      exact ⟨by simp, pre ++ [a], by simp, fun _ => List.mem_cons_of_mem a⟩
    · obtain ⟨hcycle, rest, hrest, hmem⟩ := ih
      rw [List.cons_append, List.takeWhile_cons_of_pos (by simpa using e),
        List.dropWhile_cons_of_pos (by simpa using e)]
      refine ⟨fun x hx => ?_, rest, hrest, fun x hx => List.mem_cons_of_mem a (hmem x hx)⟩
      obtain rfl | hx := List.mem_cons.1 hx
      · exact List.mem_cons_self
      · exact List.mem_cons_of_mem a (hcycle x hx)

theorem closeLinking_builds (hc : Conduct journal owner reserved hosts) {pre : List ModuleId}
    (hstack : ∀ x ∈ t₁.stack, (s.cyclic x).status.IsIdle) (ht : t₁.stack = pre ++ m :: t.stack)
    (hrunnable : ∀ x ∈ pre ++ [m], s.Has x ∧ (s.module x).kind.IsRunnable)
    (hrun : closeLinking m t₁ s = some ((result, t'), s')) :
    LinkedBy journal reserved hosts s t result s' t' := by
  rw [closeLinking, LinkVisit.view_bind] at hrun
  split at hrun
  · obtain ⟨t₂, t₃, s₁, h₁, h₂⟩ | ⟨e, h₁, -⟩ := visit_bind.1 hrun
    · cases h₁
      obtain ⟨hcycle, rest, hrest, hmem⟩ := close_of_append t₁ m pre ht
      obtain ⟨_, t₄, s₂, h₃, h₄⟩ | ⟨e, h₃, -⟩ := visit_bind.1 h₂
      · cases h₃
        cases h₄
        have hsub : ∀ x ∈ (t₁.close m).1, x ∈ t₁.stack := fun x hx => by
          rw [← t₁.close_append m]
          exact List.mem_append_left _ hx
        have hb : Builds journal reserved hosts s
            ((t₁.close m).1.foldl (fun s x => s.setStatus x .linked) s) :=
          builds_foldl hc (fun x hx => hstack x (hsub x hx)) fun x hx => hrunnable x (hcycle x hx)
        refine ⟨hb, fun x hx => hb.steps.idle hc (hstack x ?_),
          fun _ => ⟨rest, hrest, fun x hx => ?_⟩⟩
        · rw [← t₁.close_append m]
          exact List.mem_append_right _ hx
        · obtain ⟨hhas, hx⟩ := hrunnable x (hmem x hx)
          exact ⟨hb.has x hhas, hb.runnable x hhas hx⟩
      · cases h₃
    · cases h₁
  · cases hrun
    exact ⟨.refl s, hstack, fun _ => ⟨pre ++ [m], by rw [ht, List.append_cons], hrunnable⟩⟩

/-- The end of a visit: the module gets its environment, and its cycle is closed if it is the root
of it. -/
theorem finishLinking_builds (hc : Conduct journal owner reserved hosts) (hh : host ∈ hosts)
    (hm : (s.cyclic m).status.IsIdle) (hhas : s.Has m) {pre : List ModuleId}
    (hstack : ∀ x ∈ t₁.stack, (s.cyclic x).status.IsIdle) (ht : t₁.stack = pre ++ m :: t.stack)
    (hrunnable : ∀ x ∈ pre, s.Has x ∧ (s.module x).kind.IsRunnable)
    (hrun : (do
      LinkVisit.ofLinking (initializeModule host names m)
      closeLinking m : LinkVisit σ κ Unit) t₁ s = some ((result, t'), s')) :
    LinkedBy journal reserved hosts s t result s' t' := by
  obtain ⟨_, t₂, s₁, h₁, h₂⟩ | ⟨e, h₁, rfl⟩ := visit_bind.1 hrun
  · obtain ⟨rfl, hbody⟩ := LinkVisit.ofLinking_eq_some.1 h₁
    obtain ⟨hinit, hself⟩ := initializeModule_builds hc hh hm hhas hbody
    refine (closeLinking_builds hc (fun x hx => hinit.steps.idle hc (hstack x hx)) ht
      (fun x hx => ?_) h₂).after hinit
    obtain hx | hx := List.mem_append.1 hx
    · obtain ⟨hx', hr⟩ := hrunnable x hx
      exact ⟨hinit.has x hx', hinit.runnable x hx' hr⟩
    · rw [List.mem_singleton.1 hx]
      exact ⟨hinit.has m hhas, hself rfl⟩
  · obtain ⟨rfl, hbody⟩ := LinkVisit.ofLinking_eq_some.1 h₁
    obtain ⟨hinit, -⟩ := initializeModule_builds hc hh hm hhas hbody
    exact ⟨hinit, fun x hx => hinit.steps.idle hc (hstack x hx), fun e => nomatch e⟩

theorem firstLinking_builds (hc : Conduct journal owner reserved hosts) (hh : host ∈ hosts)
    (ih : VisitsLink journal reserved hosts host depth) (hm : (s.cyclic m).status.IsIdle)
    (hhas : s.Has m) (hstack : ∀ x ∈ t.stack, (s.cyclic x).status.IsIdle) {requested : List String}
    (hrun : (do
      openLinking m
      requested.forM (requestLinking host depth names m)
      LinkVisit.ofLinking (initializeModule host names m)
      closeLinking m : LinkVisit σ κ Unit) t s = some ((result, t'), s')) :
    LinkedBy journal reserved hosts s t result s' t' := by
  obtain ⟨_, t₁, s₁, h₁, h₂⟩ | ⟨e, h₁, -⟩ := visit_bind.1 hrun
  swap
  · cases h₁
  obtain ⟨ht, hopen⟩ : t₁.stack = m :: t.stack ∧ Builds journal reserved hosts s s₁ := by
    cases h₁
    exact ⟨rfl, .updateCyclic hm (fun c _ => c.relinked_status .linking trivial _ _)
      fun _ hl => hl.elim⟩
  have hm₁ := hopen.steps.idle hc hm
  have hstack₁ : ∀ x ∈ t₁.stack, (s₁.cyclic x).status.IsIdle := fun x hx => by
    rw [ht] at hx
    obtain rfl | hx := List.mem_cons.1 hx
    · exact hm₁
    · exact hopen.steps.idle hc (hstack x hx)
  obtain ⟨_, t₂, s₂, h₃, h₄⟩ | ⟨e, h₃, rfl⟩ := visit_bind.1 h₂
  · have hall := requestsLinking_builds hc hh ih requested _ _ hm₁ hstack₁ h₃
    obtain ⟨pre, hpre, hrunnable⟩ := hall.left rfl
    rw [ht] at hpre
    exact (finishLinking_builds hc hh (hall.builds.steps.idle hc hm₁)
      (hall.builds.has m (hopen.has m hhas)) hall.idle hpre hrunnable h₄).after
        (hopen.trans hall.builds)
  · have hall := requestsLinking_builds hc hh ih requested _ _ hm₁ hstack₁ h₃
    exact ⟨hopen.trans hall.builds, hall.idle, fun e => nomatch e⟩

theorem visitLinking_builds (hc : Conduct journal owner reserved hosts) (hh : host ∈ hosts)
    (depth : Nat) : VisitsLink journal reserved hosts host depth := by
  induction depth with
  | zero =>
    intro names m t s result t' s' _ _ hrun
    obtain ⟨-, a, -, hrun⟩ := LinkVisit.ofRun_eq_some.1 hrun
    cases hrun
  | succ depth ih =>
    intro names m t s result t' s' hhas hstack hrun
    rw [visitLinking, LinkVisit.view_bind] at hrun
    cases hcyc : s.cyclic? m with
    | none =>
      simp only [hcyc] at hrun
      obtain ⟨rfl, hleaf⟩ := LinkVisit.ofLinking_eq_some.1 hrun
      exact (linkLeaf_builds hc hh hleaf).linkedBy hc hstack
    | some c =>
      simp only [hcyc] at hrun
      by_cases hu : c.status = .unlinked
      · rw [if_pos hu] at hrun
        have hm : (s.cyclic m).status.IsIdle := by
          rw [cyclic_of_cyclic? hcyc, hu]
          trivial
        exact firstLinking_builds hc hh ih hm hhas hstack hrun
      · rw [if_neg hu] at hrun
        cases hrun
        exact (Builds.refl s).linkedBy hc hstack

theorem unlink_steps (hi : (s.cyclic m).status.IsIdle) :
    LinkSteps journal reserved hosts s (s.unlink m) := by
  rw [unlink_eq_updateKind]
  cases hk : (s.module m).kind with
  | source r env c => exact .single (.update hi (.cyclic (congrArg _ hk) (by rw [hk]; rfl) 
      (c.relinked_status .unlinked trivial _ _)))
  | foreign i c => exact .single (.update hi (.cyclic (congrArg _ hk) (by rw [hk]; rfl)
      (c.relinked_status .unlinked trivial _ _)))
  | leaf state => rw [updateKind_of_eq (by rw [hk]; rfl)]

/-- What is linked when a link was taken back has been left alone. -/
theorem kind_of_isLinked_unlink (stack : List ModuleId)
    (hx : ((stack.foldl Machine.unlink s).status x).IsLinked) :
    ((stack.foldl Machine.unlink s).module x).kind = (s.module x).kind := by
  induction stack generalizing s with
  | nil => rfl
  | cons m rest ih =>
    rw [List.foldl_cons] at hx ⊢
    rw [ih hx]
    rw [status, ih hx] at hx
    rw [unlink_eq_updateKind] at hx ⊢
    by_cases hm : s.Has m
    · rw [kind_updateKind takeBack hm] at hx ⊢
      split at hx <;> rename_i e
      · rw [if_pos e]
        cases hk : (s.module x).kind with
        | source r env c => rw [hk] at hx; exact hx.elim
        | foreign i c => rw [hk] at hx; exact hx.elim
        | leaf state => rfl
      · rw [if_neg e]
    · rw [updateKind, updateModule_of_not_has _ hm]

/-- A link is made of steps of linking, whether it succeeds or fails, and leaves only what can run
linked. -/
theorem link_steps (hc : Conduct journal owner reserved hosts) (hh : host ∈ hosts) (hm : s.Has m)
    (hrun : host.link m s = some (result, s')) : LinkSteps journal reserved hosts s s' ∧
      ((∀ x, (s.status x).IsLinked → (s.module x).kind.IsRunnable) →
        ∀ x, (s'.status x).IsLinked → (s'.module x).kind.IsRunnable) := by
  rw [Host.link, Run.bind_eq_some] at hrun
  obtain ⟨⟨r, t⟩, s₁, h₁, h₂⟩ := hrun
  have hv := visitLinking_builds hc hh host.depth [] m ⟨[], 0⟩ s r t s₁ hm
    (fun _ hx => by cases hx) h₁
  have hrunnable : (∀ x, (s.status x).IsLinked → (s.module x).kind.IsRunnable) →
      ∀ x, (s₁.status x).IsLinked → (s₁.module x).kind.IsRunnable := fun h x hx =>
    (hv.builds.linked x hx).elim (fun hl => hv.builds.runnable x (has_of_isLinked hl) (h x hl)) id
  cases r with
  | ok u =>
    cases h₂
    exact ⟨hv.builds.steps, hrunnable⟩
  | error e =>
    cases h₂
    refine ⟨hv.builds.steps.trans (linkSteps_foldl hc (fun _ _ => unlink_steps) hv.idle),
      fun h x hx => ?_⟩
    have hk := kind_of_isLinked_unlink t.stack hx
    rw [hk]
    rw [status, hk, ← status] at hx
    exact hrunnable h x hx

theorem Resting.link (hc : Conduct journal owner reserved hosts) (hh : host ∈ hosts)
    (h : s.Resting journal owner reserved known spare) (hm : s.Has m)
    (hrun : host.link m s = some (result, s')) : s'.Resting journal owner reserved known spare := by
  obtain ⟨hsteps, hrunnable⟩ := link_steps hc hh hm hrun
  refine (h.relinking.linkSteps hc hsteps).resting fun hst => ?_
  have hl := h.coherent.linked id ((LinkSteps.notes hc hsteps).stable hst)
  exact linkClosed_of_atRest (linkThrough_ends (linksThrough_bare hc hh) hl.atRest hm hrun).1.atRest
    (hrunnable hl.runnable)

end Machine

end ModuleGraph

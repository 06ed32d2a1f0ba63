import ModuleGraph.CommandLine.Outcome
import ModuleGraph.Proofs.Files.Lookups
import ModuleGraph.Proofs.Linking.Visit
import ModuleGraph.Proofs.Live.Linking

/-! # Files that were linked

When a link of the first file succeeds, every module that was loaded has been linked: all that a
module requests was found, and its lexical declarations have bindings of its own. The first module
is opened before all others, so it reaches nothing earlier and the last cycle to be linked is the
one that it is the root of. -/

namespace ModuleGraph

open Relation

theorem bindImports_get? {σ κ : Type} {host : Host σ κ} {path : List String} {m : ModuleId}
    {name : String} (imports : List ImportEntry) :
    ∀ {env env' s s'}, bindImports host path m imports env s = some (.ok env', s') →
      name ∉ imports.map (·.localName) → env'.get? name = env.get? name := by
  induction imports with
  | nil =>
    intro env env' s s' hrun _
    cases hrun
    rfl
  | cons i rest ih =>
    intro env env' s s' hrun hname
    rw [List.map_cons, List.mem_cons, not_or] at hname
    obtain ⟨b, s₁, -, hrun⟩ | ⟨e, -, he⟩ := throwing_bind.1 hrun
    · rw [ih hrun hname.2, Environment.get?_put_of_ne _ _ (Ne.symm hname.1)]
    · cases he

theorem initializeBinding_ok {σ κ : Type} {s s' : Machine σ κ} {m : ModuleId} {name : String}
    {v : Value} (hrun : initializeBinding m name v s = some (.ok (), s')) :
    ∃ env env', s.environment? m = some env ∧ env.initialize? name v = some env' ∧
      s' = s.setEnvironment m env' := by
  rw [initializeBinding, Act.view_bind] at hrun
  cases hfirst : (s.environment? m).bind (·.initialize? name v) with
  | none =>
    simp only [hfirst] at hrun
    cases hrun
  | some env' =>
    simp only [hfirst] at hrun
    cases hrun
    obtain ⟨env, henv, hfirst⟩ := Option.bind_eq_some_iff.1 hfirst
    exact ⟨env, env', henv, hfirst, rfl⟩

def Machine.BindsOwn {σ κ : Type} (s : Machine σ κ) (m : ModuleId) : Prop :=
  ∃ env, s.environment? m = some env ∧ ∀ record, s.record? m = some record →
    ∀ n ∈ record.lexical.map (·.1), ∃ v mutable, env.get? n = some (.local v mutable)

namespace Machine

variable {σ κ : Type} {s : Machine σ κ} {m x : ModuleId} {env : Environment}

theorem BindsOwn.has (h : s.BindsOwn m) : s.Has m := by
  obtain ⟨env, henv, -⟩ := h
  exact has_of_environment henv

theorem BindsOwn.record (h : s.BindsOwn m) : ∃ record, s.record? m = some record := by
  obtain ⟨env, henv, -⟩ := h
  rw [environment?] at henv
  rw [record?]
  cases hk : (s.module m).kind with
  | source record env' c => exact ⟨record, rfl⟩
  | foreign | leaf => rw [hk] at henv; cases henv

theorem BindsOwn.of_kind {τ ι : Type} {s' : Machine τ ι} (h : s.BindsOwn m)
    (hk : (s'.module m).kind = (s.module m).kind) : s'.BindsOwn m := by
  rw [BindsOwn, environment?, record?] at h
  rwa [BindsOwn, environment?, record?, hk]

/-- A module gets another environment in which its lexical declarations are bound. -/
theorem bindsOwn_setEnvironment (hown : ∀ record, s.record? m = some record →
      ∀ n ∈ record.lexical.map (·.1), ∃ v mutable, env.get? n = some (.local v mutable))
    (hm : s.Has m) {record : SourceRecord} (hr : s.record? m = some record) :
    (s.setEnvironment m env).BindsOwn m := by
  refine ⟨env, environment?_setEnvironment hm hr, fun record' hr' => hown record' ?_⟩
  rw [record?, setEnvironment, kind_updateKind _ hm, if_pos rfl] at hr'
  rw [record?]
  cases hk : (s.module m).kind with
  | source => rwa [hk] at hr'
  | foreign | leaf => rw [hk] at hr'; cases hr'

theorem BindsOwn.setEnvironment (h : s.BindsOwn x) (hown : ∀ record, s.record? m = some record →
      ∀ n ∈ record.lexical.map (·.1), ∃ v mutable, env.get? n = some (.local v mutable)) :
    (s.setEnvironment m env).BindsOwn x := by
  by_cases e : x = m
  · rw [e] at h ⊢
    obtain ⟨record, hr⟩ := h.record
    exact bindsOwn_setEnvironment hown h.has hr
  · refine h.of_kind ?_
    rw [Machine.setEnvironment, updateKind, module_updateModule_of_ne _ _ (Ne.symm e)]

end Machine

namespace FileSystem

namespace Desk

variable {s s' s'' : Desk} {t t' : Traversal} {m n x : ModuleId} {request : String}
variable {record : SourceRecord} {depth count : Nat} {path : List String}

/-- What linking gives a module: bindings of its own, and modules for its requests. -/
structure Furnished (s : Desk) (m : ModuleId) : Prop where
  own : s.BindsOwn m
  targets : ∀ r ∈ s.requested m, ∃ n, target? s m r = some n ∧ s.status n ≠ .unlinked

/-- A link goes on. What was visited stays so, and what has become linked is furnished. -/
structure Onward (s s' : Desk) : Prop extends Grows s s' where
  stock : Stock s'
  visited : ∀ x, s.status x ≠ .unlinked → s'.status x ≠ .unlinked
  visit : ∀ x, s.status x ≠ .unlinked → (s'.cyclic x).visit = (s.cyclic x).visit
  first : ∀ x, s.status x ≠ .unlinked → (s.cyclic x).ancestor = some 0 →
    (s'.cyclic x).ancestor = some 0
  own : ∀ x, s.BindsOwn x → s'.BindsOwn x
  furnished : ∀ x, s.status x = .unlinked → s'.status x ≠ .unlinked → Furnished s' x

namespace Onward

theorem requested (h : Onward s s') (hs : Stock s) (hm : s.Has m) :
    s'.requested m = s.requested m := hs.requested_congr h.stock (h.record m hm)

theorem keeps (h : Onward s s') (hs : Stock s) (hm : s.Has m) (hf : Furnished s m) :
    Furnished s' m where
  own := h.own m hf.own
  targets r hr := by
    rw [h.requested hs hm] at hr
    obtain ⟨n, hn, hstatus⟩ := hf.targets r hr
    exact ⟨n, h.target? hm hn, h.visited n hstatus⟩

theorem refl (hs : Stock s) : Onward s s :=
  ⟨.refl s, hs, fun _ => id, fun _ _ => rfl, fun _ _ => id, fun _ => id,
    fun _ hu hs => (hs hu).elim⟩

theorem trans (h : Onward s s') (h' : Onward s' s'') : Onward s s'' where
  toGrows := h.toGrows.trans h'.toGrows
  stock := h'.stock
  visited x hx := h'.visited x (h.visited x hx)
  visit x hx := (h'.visit x (h.visited x hx)).trans (h.visit x hx)
  first x hx ha := h'.first x (h.visited x hx) (h.first x hx ha)
  own x hx := h'.own x (h.own x hx)
  furnished x hu hx := by
    by_cases hx' : s'.status x = .unlinked
    · exact h'.furnished x hx' hx
    · exact h'.keeps h.stock (Machine.has_of_status_ne hx') (h.furnished x hu hx')

end Onward

theorem status_of_not_has (h : ¬s.Has x) : s.status x = .unlinked :=
  (Machine.isNew_of_not_has h).isUnlinked.status_eq

theorem Peeks.status (h : Peeks s s') (x : ModuleId) : s'.status x = s.status x := by
  by_cases hx : s.Has x
  · rw [Machine.status, h.kind x hx, Machine.status]
  · rw [status_of_not_has hx]
    exact (h.made x hx).isUnlinked.status_eq

theorem Peeks.onward (h : Peeks s s') (hs' : Stock s') : Onward s s' where
  toGrows := h.toGrows
  stock := hs'
  visited x hx := by rwa [h.status]
  visit x hx := by
    rw [Machine.cyclic, Machine.cyclic?_eq, h.kind x (Machine.has_of_status_ne hx), Machine.cyclic,
      Machine.cyclic?_eq]
  first x hx ha := by
    rwa [Machine.cyclic, Machine.cyclic?_eq, h.kind x (Machine.has_of_status_ne hx),
      ← Machine.cyclic?_eq, ← Machine.cyclic]
  own x hx := hx.of_kind (h.kind x hx.has)
  furnished x hu hx := absurd ((h.status x).trans hu) hx

/-! ## Updates -/

theorem Stock.updateCyclic (h : Stock s) {f : Cyclic → Cyclic}
    (hf : ∀ c, ∃ status visit ancestor, f c = { c with status, visit, ancestor }) :
    Stock (s.updateCyclic m f) ∧ Grows s (s.updateCyclic m f) := by
  refine h.updateModule (fun _ => rfl) fun x hx => ?_
  obtain ⟨record, env, status, visit, ancestor, hcoheres, hk⟩ := hx
  obtain ⟨status', visit', ancestor', hc⟩ := hf
    { Cyclic.new record.requested record.hasAwait with status, visit, ancestor }
  refine ⟨⟨record, env, status', visit', ancestor', hcoheres, ?_⟩, ?_⟩
  · rw [hk, ModuleKind.updateCyclic, hc]
  · exact ModuleKind.record?_updateCyclic f _

theorem bindsOwn_updateCyclic (s : Desk) (m : ModuleId) (f : Cyclic → Cyclic) (x : ModuleId) :
    (s.updateCyclic m f).BindsOwn x ↔ s.BindsOwn x := by
  have hkind : ∀ {β : Type} (g : ModuleKind → β), (∀ k, g (k.updateCyclic f) = g k) →
      g ((s.updateCyclic m f).module x).kind = g (s.module x).kind := fun g hg => by
    by_cases hm : s.Has m
    · rw [Machine.kind_updateCyclic f hm]
      split
      · exact hg _
      · rfl
    · rw [Machine.updateCyclic, Machine.updateKind, Machine.updateModule_of_not_has _ hm]
  rw [Machine.BindsOwn, Machine.environment?, Machine.record?,
    hkind (·.environment?) (ModuleKind.environment?_updateCyclic f),
    hkind (·.record?) (ModuleKind.record?_updateCyclic f)]
  rfl

theorem Stock.fields (h : Stock s) (m : ModuleId) : ∃ requested hasAwait status visit ancestor,
    s.cyclic? m = some { Cyclic.new requested hasAwait with status, visit, ancestor } := by
  obtain ⟨record, env, status, visit, ancestor, -, hk⟩ := h.source m
  refine ⟨record.requested, record.hasAwait, status, visit, ancestor, ?_⟩
  rw [Machine.cyclic?_eq, hk]
  rfl

theorem Stock.cyclic? (h : Stock s) (m : ModuleId) :
    ∃ c, s.cyclic? m = some c ∧ s.status m = c.status ∧ s.cyclic m = c := by
  obtain ⟨_, _, _, _, _, hc⟩ := h.fields m
  exact ⟨_, hc, Machine.status_of_cyclic? hc, Machine.cyclic_of_cyclic? hc⟩

theorem Stock.status_eq (h : Stock s) (m : ModuleId) : s.status m = (s.cyclic m).status := by
  obtain ⟨c, -, hs, hc⟩ := h.cyclic? m
  rw [hs, hc]

/-- An update of a module that was visited, and stays so. -/
theorem Stock.onward_updateCyclic (h : Stock s) (hm : s.status m ≠ .unlinked) {f : Cyclic → Cyclic}
    (hf : ∀ c, ∃ status visit ancestor, f c = { c with status, visit, ancestor })
    (hstatus : (f (s.cyclic m)).status ≠ .unlinked) (hvisit : ∀ c, (f c).visit = c.visit)
    (hfirst : ∀ c, c.ancestor = some 0 → (f c).ancestor = some 0) :
    Onward s (s.updateCyclic m f) := by
  obtain ⟨hstock, hgrows⟩ := h.updateCyclic (m := m) hf
  obtain ⟨c, hc, -, hcyclic⟩ := h.cyclic? m
  have hself := Machine.cyclic_updateCyclic_self f (Machine.has_of_status_ne hm) hc
  rw [hcyclic] at hstatus
  have hother : ∀ x, x ≠ m → (s.updateCyclic m f).cyclic x = s.cyclic x := fun x hx =>
    Machine.cyclic_updateCyclic_of_ne f hx
  refine ⟨hgrows, hstock, fun x hx => ?_, fun x _ => Machine.field_updateCyclic (·.visit) hvisit,
    fun x _ ha => ?_, fun x => (bindsOwn_updateCyclic s m f x).2, fun x hu hx => ?_⟩
  · rw [hstock.status_eq]
    by_cases e : x = m
    · rwa [e, hself]
    · rwa [hother x e, ← h.status_eq]
  · by_cases e : x = m
    · rw [e, hcyclic] at ha
      rw [e, hself]
      exact hfirst c ha
    · rwa [hother x e]
  · refine absurd ?_ hx
    rw [hstock.status_eq, hother x (fun e => hm (e ▸ hu)), ← h.status_eq, hu]

theorem Stock.setEnvironment (h : Stock s) (m : ModuleId) (env : Environment) :
    Stock (s.setEnvironment m env) ∧ Grows s (s.setEnvironment m env) := by
  refine h.updateModule (fun _ => rfl) fun x hx => ?_
  obtain ⟨record, env', status, visit, ancestor, hcoheres, hk⟩ := hx
  rw [hk]
  exact ⟨⟨record, some env, status, visit, ancestor, hcoheres, rfl⟩, rfl⟩

theorem cyclic?_setEnvironment (s : Desk) (m : ModuleId) (env : Environment) (x : ModuleId) :
    (s.setEnvironment m env).cyclic? x = s.cyclic? x := by
  by_cases hm : s.Has m
  · rw [Machine.cyclic?_eq, Machine.setEnvironment, Machine.kind_updateKind _ hm,
      Machine.cyclic?_eq]
    split
    · cases (s.module x).kind <;> rfl
    · rfl
  · rw [Machine.setEnvironment, Machine.updateKind, Machine.updateModule_of_not_has _ hm]

/-- A module gets an environment in which its lexical declarations are bound. -/
theorem Stock.onward_setEnvironment (h : Stock s) {env : Environment}
    (hown : ∀ record, s.record? m = some record → ∀ n ∈ record.lexical.map (·.1),
      ∃ v mutable, env.get? n = some (.local v mutable)) :
    Onward s (s.setEnvironment m env) ∧ (s.Has m → (s.setEnvironment m env).BindsOwn m) := by
  obtain ⟨hstock, hgrows⟩ := h.setEnvironment m env
  have hcyclic : ∀ x, (s.setEnvironment m env).cyclic x = s.cyclic x := fun x => by
    rw [Machine.cyclic, cyclic?_setEnvironment, Machine.cyclic]
  have hstatus : ∀ x, (s.setEnvironment m env).status x = s.status x := fun x => by
    rw [hstock.status_eq, hcyclic, h.status_eq]
  have hself : s.Has m → (s.setEnvironment m env).BindsOwn m := fun hm => by
    obtain ⟨record, hr, -⟩ := h.record? m
    exact Machine.bindsOwn_setEnvironment hown hm hr
  refine ⟨⟨hgrows, hstock, fun x hx => by rwa [hstatus], fun x _ => by rw [hcyclic],
    fun x _ ha => by rwa [hcyclic], fun x hx => hx.setEnvironment hown,
    fun x hu hx => absurd ((hstatus x).trans hu) hx⟩, hself⟩

/-! ## Initializing a module -/

structure Steady (s s' : Desk) : Prop extends Onward s s' where
  status : ∀ x, s'.status x = s.status x

theorem Steady.refl (hs : Stock s) : Steady s s := ⟨.refl hs, fun _ => rfl⟩

theorem Steady.trans (h : Steady s s') (h' : Steady s' s'') : Steady s s'' :=
  ⟨h.toOnward.trans h'.toOnward, fun x => (h'.status x).trans (h.status x)⟩

theorem Peeks.steady (h : Peeks s s') (hs' : Stock s') : Steady s s' := ⟨h.onward hs', h.status⟩

theorem Stock.steady_setEnvironment (h : Stock s) {env : Environment}
    (hown : ∀ record, s.record? m = some record → ∀ n ∈ record.lexical.map (·.1),
      ∃ v mutable, env.get? n = some (.local v mutable)) :
    Steady s (s.setEnvironment m env) ∧ (s.Has m → (s.setEnvironment m env).BindsOwn m) := by
  obtain ⟨honward, hself⟩ := h.onward_setEnvironment hown
  refine ⟨⟨honward, fun x => ?_⟩, hself⟩
  rw [honward.stock.status_eq, Machine.cyclic, cyclic?_setEnvironment, ← Machine.cyclic,
    ← h.status_eq]

theorem Stock.prepareDry (h : Stock s) (hm : s.BindsOwn m)
    (hrun : FileSystem.prepareDry m s = some (.ok (), s')) : Steady s s' := by
  rw [FileSystem.prepareDry, Act.view_bind] at hrun
  generalize declaredNames true s m = names at hrun
  induction names generalizing s with
  | nil =>
    cases hrun
    exact .refl h
  | cons name rest ih =>
    obtain ⟨⟨⟩, s₁, hfirst, hrest⟩ | ⟨e, -, he⟩ := throwing_bind.1 hrun
    · have hsteady : Steady s s₁ := by
        obtain ⟨env, env', henv, hvalue, rfl⟩ := initializeBinding_ok hfirst
        obtain ⟨env₀, henv₀, hown⟩ := hm
        cases henv.symm.trans henv₀
        exact (h.steady_setEnvironment fun record hr n hn =>
          Environment.local_of_writes (.single (.first hvalue)) (hown record hr n hn)).1
      exact hsteady.trans (ih hsteady.stock (hsteady.own m hm) hrest)
    · cases he

/-- A module is initialized: its declarations get bindings of their own. -/
theorem Stock.initializeModule (h : Stock s) (hm : s.Has m)
    (hrun : ModuleGraph.initializeModule (dryHost depth) path m s = some (.ok (), s')) :
    Steady s s' ∧ s'.BindsOwn m := by
  obtain ⟨record, hr, hcoheres, hrequested⟩ := h.record? m
  rw [initializeModule_of_record hr] at hrun
  obtain ⟨s₁, env, s₂, hchecks, hbinds, hprepare⟩ := initializeSource_ok.1 hrun
  have hlisted := hcoheres.listed
  have hindirect : ∀ e ∈ record.indirectExports,
      Follows s (checkIndirect (dryHost depth) path m e) := fun e he =>
    Follows.checkIndirect h (hrequested ▸ hlisted.indirect e he)
  obtain ⟨hstock₁, hpeeks₁⟩ := Follows.forM hindirect s _ s₁ h (.refl s) hchecks
  obtain ⟨hstock₂, hpeeks₂⟩ := Follows.bindImports h
    (fun i hi => hrequested ▸ hlisted.imports i hi) .empty s₁ env s₂ hstock₁ hpeeks₁ hbinds
  have hpeeks := hpeeks₁.trans hpeeks₂
  have hown : ∀ record', s₂.record? m = some record' → ∀ n ∈ record'.lexical.map (·.1),
      ∃ v mutable, (record.complete env).get? n = some (.local v mutable) := by
    intro record' hr' n hn
    rw [hpeeks.record m hm, hr] at hr'
    cases hr'
    have hdeclared : n ∈ record.declared := List.mem_append_right _ hn
    refine SourceRecord.get?_complete_of_declared hdeclared ?_
    rw [bindImports_get? _ hbinds (hcoheres.apart n hdeclared), Environment.get?_empty]
  obtain ⟨hset, hself⟩ := hstock₂.steady_setEnvironment hown
  have hbound := hself (hpeeks.has m hm)
  have hprepared := hset.stock.prepareDry hbound hprepare
  exact ⟨((hpeeks.steady hstock₂).trans hset).trans hprepared, hprepared.own m hbound⟩

/-! ## The search -/

/-- A link is under way: the stack holds the modules that are being linked. -/
structure Opened (t : Traversal) (s : Desk) : Prop where
  nodup : t.stack.Nodup
  open_iff : ∀ x, s.status x = .linking ↔ x ∈ t.stack
  early : ∀ x, s.status x = .unlinked ∨ s.status x = .linking ∨ s.status x = .linked

theorem Opened.steady (h : Opened t s) (hs : Steady s s') : Opened t s' :=
  ⟨h.nodup, fun x => by rw [hs.status, h.open_iff], fun x => by rw [hs.status]; exact h.early x⟩

/-- What a visit comes to: the module is being linked, or it is linked. The first module that is
visited is the root of its cycle. -/
structure Visit (t : Traversal) (s : Desk) (m : ModuleId) (t' : Traversal) (s' : Desk) :
    Prop where
  onward : Onward s s'
  opened : Opened t' s'
  suffix : t.stack <:+ t'.stack
  visited : s'.status m ≠ .unlinked
  first : t.visits = 0 → t'.stack = t.stack

theorem Stock.reachOpen (h : Stock s) (hm : s.status m ≠ .unlinked) (n : ModuleId) :
    Steady s (ModuleGraph.reachOpen m n s) := by
  rw [ModuleGraph.reachOpen]
  split
  · split
    · rename_i c _ _
      have honward := h.onward_updateCyclic hm (f := (·.reach c.ancestor))
        (fun d => ⟨d.status, d.visit, _, rfl⟩) (by rwa [h.status_eq] at hm) (fun _ => rfl)
        fun d hd => by
          cases ha : c.ancestor <;> simp [Cyclic.reach, hd]
      exact ⟨honward, fun x => Machine.status_updateCyclic fun _ => rfl⟩
    · exact .refl h
  · exact .refl h

/-- The requests of a module that is visited are followed, when the visits of a smaller depth end
as they should. -/
theorem Stock.requests {names : List String} (requests : List String)
    (ih : ∀ names n t s t' s', Stock s → Opened t s → s.Has n →
      visitLinking (dryHost depth) count names n t s = some ((.ok (), t'), s') →
        Visit t s n t' s') :
    ∀ {t s}, Stock s → Opened t s → s.status m ≠ .unlinked → (∀ r ∈ requests, r ∈ s.requested m) →
      (requests.forM (Machine.requestLinking (dryHost depth) count names m)) t s =
          some ((.ok (), t'), s') →
        Onward s s' ∧ Opened t' s' ∧ t.stack <:+ t'.stack ∧
          ∀ r ∈ requests, ∃ n, target? s' m r = some n ∧ s'.status n ≠ .unlinked := by
  induction requests with
  | nil =>
    intro t s h ho _ _ hrun
    cases hrun
    exact ⟨.refl h, ho, List.suffix_rfl, nofun⟩
  | cons r rest ihr =>
    intro t s h ho hm hr hrun
    rw [List.forall_mem_cons] at hr
    obtain ⟨t₃, s₃, hfirst, hrest⟩ | ⟨e, -, he⟩ := visit_forM_cons.1 hrun
    swap
    · cases he
    obtain ⟨n, t₁, s₁, hresolve, hvisit⟩ | ⟨e, -, he⟩ := visit_bind.1 hfirst
    swap
    · cases he
    obtain ⟨rfl, hfound⟩ := LinkVisit.ofLinking_eq_some.1 hresolve
    obtain ⟨x, hload, hx⟩ := Linking.ofAct_eq_some.1 hfound
    cases x with
    | error e => cases hx
    | ok n' =>
      cases hx
      obtain ⟨hstock₁, hpeeks, htarget⟩ := h.loadSpecifier hr.1 hload
      have hfound := hpeeks.steady hstock₁
      obtain ⟨⟨⟩, t₂, s₂, hvisit, hreach⟩ | ⟨e, -, he⟩ := visit_bind.1 hvisit
      · have hv := ih _ _ _ _ _ _ hstock₁ (ho.steady hfound) (hstock₁.has_target htarget) hvisit
        cases hreach
        have hm₂ : s₂.status m ≠ .unlinked := hv.onward.visited m (by rwa [hfound.status])
        have hreached := hv.onward.stock.reachOpen hm₂ n
        have hhas : s.Has m := Machine.has_of_status_ne hm
        have honward := (hfound.toOnward.trans hv.onward).trans hreached.toOnward
        obtain ⟨hrest₁, hopened, hsuffix, hall⟩ := ihr honward.stock (hv.opened.steady hreached)
          (honward.visited m hm) (fun q hq => by rw [honward.requested h hhas]; exact hr.2 q hq)
          hrest
        refine ⟨honward.trans hrest₁, hopened, hv.suffix.trans hsuffix,
          List.forall_mem_cons.2 ⟨⟨n, ?_, ?_⟩, hall⟩⟩
        · exact ((hv.onward.trans hreached.toOnward).trans hrest₁).target? (hpeeks.has m hhas)
            htarget
        · exact (hreached.toOnward.trans hrest₁).visited n hv.visited
      · cases he

theorem Stock.link (h : Stock s) (cycle post : List ModuleId) {visits : ℕ}
    (ho : Opened ⟨cycle ++ post, visits⟩ s) :
    Onward s (cycle.foldl (fun s x => s.setStatus x .linked) s) ∧
      Opened ⟨post, visits⟩ (cycle.foldl (fun s x => s.setStatus x .linked) s) := by
  have hopen : ∀ x ∈ cycle, s.status x ≠ .unlinked := fun x hx => by
    rw [(ho.open_iff x).2 (List.mem_append_left _ hx)]
    exact nofun
  have honward : ∀ {s} (_ : Stock s) (xs : List ModuleId), (∀ x ∈ xs, s.status x ≠ .unlinked) →
      Onward s (xs.foldl (fun s x => s.setStatus x .linked) s) := by
    intro s h xs
    induction xs generalizing s with
    | nil => exact fun _ => .refl h
    | cons x rest ih =>
      intro hx
      rw [List.forall_mem_cons] at hx
      have hfirst := h.onward_updateCyclic hx.1 (f := fun c => { c with status := .linked })
        (fun d => ⟨_, d.visit, d.ancestor, rfl⟩) nofun (fun _ => rfl) fun _ => id
      exact hfirst.trans (ih hfirst.stock fun y hy => hfirst.visited y (hx.2 y hy))
  have hall := honward h cycle hopen
  have hcycle := (List.nodup_append.1 ho.nodup)
  have hstatus : ∀ x, (cycle.foldl (fun s x => s.setStatus x .linked) s).status x =
      if x ∈ cycle then .linked else s.status x := fun x => by
    obtain ⟨c, hc, -, -⟩ := h.cyclic? x
    have hkind := Machine.cyclic?_foldl_updateCyclic (s := s) (n := x)
      (fun c => { c with status := .linked }) hcycle.1
      fun y hy => Machine.has_of_status_ne (hopen y hy)
    rw [hc] at hkind
    by_cases hx : x ∈ cycle
    · rw [if_pos hx] at hkind ⊢
      exact Machine.status_of_cyclic? hkind
    · rw [if_neg hx] at hkind ⊢
      rw [Machine.status_of_cyclic? hc]
      exact Machine.status_of_cyclic? hkind
  refine ⟨hall, hcycle.2.1, fun x => ?_, fun x => ?_⟩
  · rw [hstatus]
    by_cases hx : x ∈ cycle
    · rw [if_pos hx]
      exact ⟨nofun, fun hp => (hcycle.2.2 x hx x hp rfl).elim⟩
    · rw [if_neg hx, ho.open_iff, List.mem_append]
      exact or_iff_right hx
  · rw [hstatus]
    split
    · exact .inr (.inr rfl)
    · exact ho.early x

/-! ### One visit -/

theorem Stock.has_opened (h : Stock s) (hm : s.Has m) (visits : ℕ) :
    (s.updateCyclic m (.opened visits)).cyclic m = (s.cyclic m).opened visits ∧
      ∀ x, x ≠ m → (s.updateCyclic m (.opened visits)).cyclic x = s.cyclic x := by
  obtain ⟨c, hc, -, hcyclic⟩ := h.cyclic? m
  rw [hcyclic]
  exact ⟨Machine.cyclic_updateCyclic_self _ hm hc, fun x => Machine.cyclic_updateCyclic_of_ne _⟩

theorem Stock.open (h : Stock s) (ho : Opened t s) (hm : s.Has m) (hu : s.status m = .unlinked) :
    Stock (s.updateCyclic m (.opened t.visits)) ∧
      Opened ⟨m :: t.stack, t.visits + 1⟩ (s.updateCyclic m (.opened t.visits)) ∧
      (s.updateCyclic m (.opened t.visits)).status m = .linking := by
  obtain ⟨hself, hother⟩ := h.has_opened hm t.visits
  obtain ⟨hstock, -⟩ := h.updateCyclic (m := m) (f := .opened t.visits) fun c => ⟨_, _, _, rfl⟩
  have hstatus : ∀ x, (s.updateCyclic m (.opened t.visits)).status x =
      if x = m then .linking else s.status x := fun x => by
    rw [hstock.status_eq]
    by_cases e : x = m
    · rw [if_pos e, e, hself]
      rfl
    · rw [if_neg e, hother x e, ← h.status_eq]
  have hnot : m ∉ t.stack := fun hmem => by
    rw [← ho.open_iff, hu] at hmem
    cases hmem
  refine ⟨hstock, ⟨List.nodup_cons.2 ⟨hnot, ho.nodup⟩, fun x => ?_, fun x => ?_⟩,
    (hstatus m).trans (if_pos rfl)⟩
  · rw [hstatus, List.mem_cons]
    by_cases e : x = m
    · exact iff_of_true (if_pos e) (.inl e)
    · rw [if_neg e, ho.open_iff]
      exact (or_iff_right e).symm
  · rw [hstatus]
    split
    · exact .inr (.inl rfl)
    · exact ho.early x

/-- The module that was opened is furnished when its visit ends. -/
theorem Stock.onward_of_opened (h : Stock s) (hm : s.Has m) (hu : s.status m = .unlinked)
    {visits : ℕ} (honward : Onward (s.updateCyclic m (.opened visits)) s') (hf : Furnished s' m) :
    Onward s s' := by
  obtain ⟨hself, hother⟩ := h.has_opened hm visits
  obtain ⟨hstock, hgrows⟩ := h.updateCyclic (m := m) (f := .opened visits) fun c => ⟨_, _, _, rfl⟩
  have hne : ∀ x, s.status x ≠ .unlinked → x ≠ m := fun x hx e => hx (e ▸ hu)
  have hstatus : ∀ x, x ≠ m → (s.updateCyclic m (.opened visits)).status x = s.status x :=
    fun x hx => by rw [hstock.status_eq, hother x hx, ← h.status_eq]
  refine ⟨hgrows.trans honward.toGrows, honward.stock, fun x hx => ?_, fun x hx => ?_,
    fun x hx ha => ?_, fun x hx => honward.own x ((bindsOwn_updateCyclic s m _ x).2 hx),
    fun x hux hx => ?_⟩
  · exact honward.visited x (by rwa [hstatus x (hne x hx)])
  · rw [honward.visit x (by rwa [hstatus x (hne x hx)]), hother x (hne x hx)]
  · exact honward.first x (by rwa [hstatus x (hne x hx)]) (by rwa [hother x (hne x hx)])
  · by_cases e : x = m
    · rwa [e]
    · exact honward.furnished x (by rwa [hstatus x e]) hx

/-- The end of a visit: the cycle of the module is linked if it is complete. -/
theorem Stock.closeLinking (h : Stock s) (ho : Opened t s) {pre post : List ModuleId}
    (ht : t.stack = pre ++ m :: post)
    (hrun : ModuleGraph.closeLinking m t s = some ((.ok (), t'), s')) :
    Onward s s' ∧ Opened t' s' ∧ post <:+ t'.stack ∧
      ((s.cyclic m).isRoot → t'.stack = post) := by
  have hm : m ∉ pre := fun hm => by
    have hnodup := ho.nodup
    rw [ht] at hnodup
    exact (List.nodup_append.1 hnodup).2.2 m hm m List.mem_cons_self rfl
  rw [ModuleGraph.closeLinking, LinkVisit.view_bind] at hrun
  by_cases hroot : (s.cyclic m).isRoot
  · rw [if_pos hroot] at hrun
    obtain ⟨⟨⟩, t₁, s₁, hclose, hset⟩ | ⟨e, -, he⟩ := visit_bind.1 hrun
    · cases hclose
      rw [Traversal.close_of_stack ht hm] at hset
      cases hset
      rw [List.append_cons] at ht
      obtain ⟨honward, hopened⟩ := h.link (pre ++ [m]) post (by rw [← ht]; exact ho)
      exact ⟨honward, hopened, List.suffix_rfl, fun _ => rfl⟩
    · cases he
  · rw [if_neg hroot] at hrun
    cases hrun
    refine ⟨.refl h, ho, ?_, fun hr => (hroot hr).elim⟩
    rw [ht]
    exact (List.suffix_cons m post).trans (List.suffix_append _ _)

/-- **The visits of a link.** A visit leaves its module linked or on the stack, and furnishes each
module that it opens. -/
theorem Stock.visit (count : ℕ) : ∀ names m t s t' s', Stock s → Opened t s → s.Has m →
    visitLinking (dryHost depth) count names m t s = some ((.ok (), t'), s') →
      Visit t s m t' s' := by
  induction count with
  | zero =>
    intro names m t s t' s' _ _ _ hrun
    obtain ⟨-, a, -, hrun⟩ := LinkVisit.ofRun_eq_some.1 hrun
    cases hrun
  | succ count ih =>
    intro names m t s t' s' h ho hm hrun
    obtain ⟨c, hc, hstatus, hcyclic⟩ := h.cyclic? m
    rw [visitLinking, LinkVisit.view_bind, hc] at hrun
    dsimp only at hrun
    by_cases hu : c.status = .unlinked
    swap
    · rw [if_neg hu] at hrun
      cases hrun
      exact ⟨.refl h, ho, List.suffix_rfl, by rwa [hstatus], fun _ => rfl⟩
    rw [if_pos hu] at hrun
    rw [← hstatus] at hu
    obtain ⟨hstock₁, ho₁, hlinking⟩ := h.open ho hm hu
    have hm₁ : (s.updateCyclic m (.opened t.visits)).status m ≠ .unlinked := by
      rw [hlinking]
      rintro ⟨⟩
    obtain ⟨⟨⟩, t₁, s₁, hopen, hrest⟩ | ⟨e, -, he⟩ := visit_bind.1 hrun
    swap
    · cases he
    cases hopen
    obtain ⟨⟨⟩, t₂, s₂, hrequests, hrest⟩ | ⟨e, -, he⟩ := visit_bind.1 hrest
    swap
    · cases he
    have hasked : (s.updateCyclic m (.opened t.visits)).requested m = c.requested := by
      refine (Machine.requested_updateCyclic ?_).trans (Machine.requested_of_cyclic? hc)
      exact fun _ => rfl
    obtain ⟨honward₂, ho₂, hsuffix, htargets⟩ := hstock₁.requests c.requested ih ho₁ hm₁
      (fun r hr => by rwa [hasked]) hrequests
    obtain ⟨⟨⟩, t₃, s₃, hinit, hclose⟩ | ⟨e, -, he⟩ := visit_bind.1 hrest
    swap
    · cases he
    obtain ⟨rfl, hmodule⟩ := LinkVisit.ofLinking_eq_some.1 hinit
    have hm₂ : s₂.Has m := Machine.has_of_status_ne (honward₂.visited m hm₁)
    obtain ⟨hsteady, hown⟩ := honward₂.stock.initializeModule hm₂ hmodule
    have honward₃ := honward₂.trans hsteady.toOnward
    obtain ⟨pre, hpre⟩ := hsuffix
    obtain ⟨honward₄, ho₄, hpost, hroot⟩ :=
      hsteady.stock.closeLinking (ho₂.steady hsteady) hpre.symm hclose
    have honward := honward₃.trans honward₄
    have hvisited := honward.visited m hm₁
    have hf : Furnished s' m := by
      refine ⟨honward₄.own m hown, fun r hr => ?_⟩
      rw [honward.requested hstock₁ (Machine.has_of_status_ne hm₁), hasked] at hr
      obtain ⟨n, hn, hstatus⟩ := htargets r hr
      have hon := hsteady.toOnward.trans honward₄
      exact ⟨n, hon.target? hm₂ hn, hon.visited n hstatus⟩
    refine ⟨h.onward_of_opened hm hu honward hf, ho₄, hpost, hvisited, fun hzero => ?_⟩
    -- What was opened first reaches nothing that was opened before it.
    refine hroot ?_
    obtain ⟨hself, -⟩ := h.has_opened hm t.visits
    have ha : (s₃.cyclic m).ancestor = some 0 := honward₃.first m hm₁ (by rw [hself, ← hzero]; rfl)
    rw [Cyclic.isRoot, ha, honward₃.visit m hm₁, hself, ← hzero]
    exact beq_self_eq_true _

/-! ## The linked files -/

structure Ready (s : Desk) : Prop where
  stock : Stock s
  linked : ∀ m, s.Has m → s.status m = .linked
  furnished : ∀ m, s.Has m → Furnished s m

/-- **Linking reaches all files.** When the file at a path and all that it leads to were linked,
each module that was loaded is linked. The entry is the first one. -/
theorem ready_of_loadAndLink {t : Tree} {current : Place} {path : String}
    (hrun : CommandLine.loadAndLink (dryHost depth) path (.initial (.initial t current)) =
      some (.ok m, s)) :
    Ready s ∧ m = ⟨0⟩ ∧ s.Has ⟨0⟩ ∧ s.host.tree = t ∧ s.host.current = current := by
  obtain ⟨x, s₁, hload, hrun⟩ := Run.bind_eq_some.1 hrun
  cases x with
  | error e => cases hrun
  | ok m' =>
    obtain ⟨y, s₂, hlink, hrun⟩ := Run.bind_eq_some.1 hrun
    cases y with
    | error e => cases hrun
    | ok =>
      cases hrun
      obtain ⟨hstock, hpeeks, rfl, hhas⟩ := (stock_initial t current).loadEntry rfl hload
      obtain ⟨⟨z, t'⟩, s₃, hvisit, hend⟩ := Run.bind_eq_some.1 hlink
      cases z with
      | error e => cases hend
      | ok =>
        cases hend
        have hu : ∀ x, s₁.status x = .unlinked := fun x =>
          (hpeeks.status x).trans (status_of_not_has (Nat.not_lt_zero _))
        have ho : Opened ⟨[], 0⟩ s₁ := by
          refine ⟨List.nodup_nil, fun x => ?_, fun x => .inl (hu x)⟩
          rw [hu]
          exact ⟨nofun, nofun⟩
        have hv := hstock.visit _ _ _ _ _ _ _ ho hhas hvisit
        have hempty : t'.stack = [] := hv.first rfl
        -- By induction on the order of loading, each module was visited.
        have hvisited : ∀ i, ∀ x : ModuleId, x.index = i → s.Has x →
            s.status x ≠ .unlinked := by
          intro i
          induction i using Nat.strong_induction_on with
          | _ i ih =>
            intro x hx hhasx
            by_cases hzero : x.index = 0
            · obtain rfl : x = ⟨0⟩ := congrArg ModuleId.mk hzero
              exact hv.visited
            · obtain ⟨y, r, hlt, hr, ht⟩ := hv.onward.stock.asked x hhasx hzero
              have hy := ih y.index (by omega) y rfl (Nat.lt_trans hlt hhasx)
              obtain ⟨n, hn, hstatus⟩ := (hv.onward.furnished y (hu y) hy).targets r hr
              cases ht.symm.trans hn
              exact hstatus
        refine ⟨⟨hv.onward.stock, fun x hx => ?_, fun x hx => ?_⟩, rfl, hv.onward.has _ hhas,
          hv.onward.tree.trans hpeeks.tree, hv.onward.current.trans hpeeks.current⟩
        · obtain hs | hs | hs := hv.opened.early x
          · exact (hvisited _ x rfl hx hs).elim
          · rw [hv.opened.open_iff, hempty] at hs
            cases hs
          · exact hs
        · exact hv.onward.furnished x (hu x) (hvisited _ x rfl hx)

end Desk

end FileSystem

end ModuleGraph

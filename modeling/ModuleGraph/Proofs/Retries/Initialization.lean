import ModuleGraph.Proofs.Linking.Initializing
import ModuleGraph.Proofs.Retries.Grounds

/-! # The initialization of a module in two links

The initialization of a module looks up what the module takes from elsewhere, makes its environment
or its instance, and lets the host prepare it. If the first host has done this once, the second one
can do it in every machine of the two links, and it makes the same. -/

namespace ModuleGraph

open Syntax

variable {σ κ : Type} {journal : σ → Journal} {world : Machine σ κ → Prop}
variable {first second host : Host σ κ} {base s s' s₁ : Machine σ κ} {m : ModuleId}
variable {path path' : List String} {record : SourceRecord}

namespace Host.Replaces

variable (h : second.Replaces first journal world)
include h

/-! ## All machines of the links -/

theorem initializeSource_grounds (path : List String) (m : ModuleId) (record : SourceRecord) :
    Within (Machine.Stays (Machine.Founded world second base))
      (initializeSource first path m record) := by
  have hc := Machine.Stays.composes (Machine.Founded world second base)
  refine Within.bind hc (Within.forM hc (h.asks.checkIndirect path m) _) fun _ => ?_
  refine Within.bind hc (h.asks.bindImports h.namespaceKeys path m _ _) fun env => ?_
  refine Within.bind hc (fun s r s' hrun hg => ?_) fun _ => Within.ofAct fun s r s' hrun hg => ?_
  · cases hrun
    refine ⟨hg.updateKind h.text (fun k => ?_) (fun k record hk => ?_), fun x hx => ?_⟩
    · cases k <;> exact ⟨rfl, rfl⟩
    · cases k <;> rfl
    · exact (Machine.has_updateKind _).2 hx
  · have hs := h.before.prepare m s r s' hrun
    refine ⟨hg.spares h.text hs (h.before.conduct.prepare m s r s' hrun) fun x hx => ?_,
      (hs.1 hg.here).2⟩
    rw [hx]
    exact h.before.awaits hrun

theorem initializeForeign_grounds (path : List String) (m : ModuleId) :
    Within (Machine.Stays (Machine.Founded world second base))
      (ModuleGraph.initializeForeign first path m) := by
  have hc := Machine.Stays.composes (Machine.Founded world second base)
  refine Within.bind hc (Within.ofAct (Within.bind hc ?_ fun _ => ?_)) fun w s r s' hrun hg => ?_
  · exact Machine.Founded.within h.text (h.before.initializeForeign m)
      (h.before.conduct.initializeForeign m)
  · exact Machine.Founded.within h.text (h.before.instantiateForeign m)
      (h.before.conduct.instantiateForeign m)
  · cases hrun
    refine ⟨hg.updateKind h.text (fun k => ?_) (fun k record hk => ?_), fun x hx => ?_⟩
    · cases k <;> exact ⟨rfl, rfl⟩
    · cases k with
      | source r env c => rfl
      | foreign i c => cases hk
      | leaf state => rfl
    · exact (Machine.has_updateKind _).2 hx

theorem initializeModule_grounds (path : List String) (m : ModuleId) :
    Within (Machine.Stays (Machine.Founded world second base))
      (initializeModule first path m) := by
  refine Within.bind (Machine.Stays.composes _) (fun s r s' hrun => ?_) fun record => ?_
  · cases hrun
    exact (Machine.Stays.composes _).refl s
  · split
    · exact h.initializeSource_grounds path m _
    · exact h.initializeForeign_grounds path m

/-! ## What is done again -/

theorem resolve (m : ModuleId) (request : String) :
    Redone (Machine.Founded world second base) (first.resolve (.module m) request)
      (second.resolve (.module m) request) :=
  (h.again.resolve m request).mono fun _ hg => hg.here

theorem resolveRequest (m : ModuleId) (request : String) :
    Redone (Machine.Founded world second base) (resolveRequest first path m request)
      (resolveRequest second path' m request) := .ofAct (h.resolve m request)

theorem resolveImport (m : ModuleId) (request name : String) :
    Redone (Machine.Founded world second base) (resolveImport first path m request name)
      (resolveImport second path' m request name) := by
  refine Redone.bind (.ofAct ?_) (Within.ofAct ?_) (Within.ofAct ?_) fun resolution => ?_
  · refine (h.resolve m request).bind (h.asks.resolve _ _) (h.self.asks.resolve _ _)
      fun target => ?_
    exact (h.again.resolution h.text h.before.stays h.after.stays target name).mono
      fun _ hg => hg.here
  · exact Within.bind h.asks.toComposes (h.asks.resolve _ _) fun _ => h.asks.resolution _ _
  · exact Within.bind h.self.asks.toComposes (h.self.asks.resolve _ _)
      fun _ => h.self.asks.resolution _ _
  · split
    · exact Redone.pure _
    · exact Redone.throw _
    · exact Redone.throw _

theorem checkIndirect (m : ModuleId) (e : IndirectExport) :
    Redone (Machine.Founded world second base) (checkIndirect first path m e)
      (checkIndirect second path' m e) := by
  rw [ModuleGraph.checkIndirect, ModuleGraph.checkIndirect]
  split
  · exact (h.resolveImport m _ _).bind (h.asks.resolveImport _ _ _ _)
      (h.self.asks.resolveImport _ _ _ _) fun _ => Redone.pure _
  · exact (h.resolveRequest m _).bind (h.asks.resolveRequest _ _ _)
      (h.self.asks.resolveRequest _ _ _) fun _ => Redone.pure _

theorem namespaceBinding (request : String) (m : ModuleId) :
    Redone (Machine.Founded world second base) (namespaceBinding first path request m)
      (namespaceBinding second path' request m) := by
  exact (Redone.ofAct (h.namespaceOf m)).bind (Within.ofAct (h.asks.namespaceOf h.namespaceKeys m))
    (Within.ofAct (h.self.asks.namespaceOf h.self.namespaceKeys m)) fun _ => Redone.pure _

theorem importBinding (m : ModuleId) (i : ImportEntry) :
    Redone (Machine.Founded world second base) (importBinding first path m i)
      (importBinding second path' m i) := by
  rw [ModuleGraph.importBinding, ModuleGraph.importBinding]
  split
  · exact (h.resolveRequest m _).bind (h.asks.resolveRequest _ _ _)
      (h.self.asks.resolveRequest _ _ _) fun _ => h.namespaceBinding _ _
  · refine (h.resolveImport m _ _).bind (h.asks.resolveImport _ _ _ _)
      (h.self.asks.resolveImport _ _ _ _) ?_
    rintro ⟨target, b⟩
    dsimp only
    split
    · exact h.namespaceBinding _ _
    · exact Redone.pure _

theorem bindImports (m : ModuleId) (imports : List ImportEntry) : ∀ env,
    Redone (Machine.Founded world second base) (bindImports first path m imports env)
      (bindImports second path' m imports env) := by
  induction imports with
  | nil => exact fun _ => Redone.pure _
  | cons i rest ih =>
    intro env
    rw [ModuleGraph.bindImports, ModuleGraph.bindImports]
    exact (h.importBinding m i).bind (h.asks.importBinding h.namespaceKeys path m i)
      (h.self.asks.importBinding h.self.namespaceKeys path' m i) fun _ => ih _

omit h in
/-- The environment of the module that is set is the one that the host prepares. -/
theorem setEnvironment_grounds (ht : OneText world) (hg : base.Founded world second s)
    (env : Environment) : base.Founded world second (s.setEnvironment m env) :=
  hg.updateKind ht (fun k => by cases k <;> exact ⟨rfl, rfl⟩) fun k _ _ => by cases k <;> rfl

omit h in
/-- A source text module is made of its environment; whether it awaits is known from the start. -/
theorem linkage_of_record (hg : base.Founded world second s)
    (hr : s.record? m = some record) :
    s.linkage m = ⟨s.environment? m, false, (base.linkage m).hasAwait⟩ := by
  rw [← hg.awaits m record hr]
  exact ModuleKind.linkage_of_record? hr

theorem initializeSource (hg : base.Founded world second s) (hg' : base.Founded world second s')
    (hm : s.Has m) (hr : s.record? m = some record)
    (hrun : ModuleGraph.initializeSource first path m record s = some (.ok (), s₁))
    (path' : List String) :
    ∃ s₁', ModuleGraph.initializeSource second path' m record s' = some (.ok (), s₁') ∧
      s₁'.linkage m = s₁.linkage m := by
  have hm' : s'.Has m := (h.text.has hg.here hg'.here).2 hm
  have hg₁ := (h.initializeSource_grounds path m record _ _ _ hrun hg).1
  obtain ⟨s₂, env, s₃, hcheck, hbind, hprepare⟩ := initializeSource_ok.1 hrun
  have hstays := Machine.Stays.composes (Machine.Founded world second base)
  obtain ⟨hg₂, hgrow₂⟩ := Within.forM hstays (h.asks.checkIndirect path m) _ _ _ _ hcheck hg
  obtain ⟨hg₃, hgrow₃⟩ := h.asks.bindImports h.namespaceKeys path m _ _ _ _ _ hbind hg₂
  obtain ⟨s₂', hcheck'⟩ := Redone.forM (h.asks.checkIndirect path m)
    (h.self.asks.checkIndirect path' m) (h.checkIndirect m) _ _ _ _ _ hg hg' hcheck
  obtain ⟨hg₂', hgrow₂'⟩ :=
    Within.forM hstays (h.self.asks.checkIndirect path' m) _ _ _ _ hcheck' hg'
  obtain ⟨s₃', hbind'⟩ := h.bindImports m _ _ _ _ _ _ hg₂ hg₂' hbind
  obtain ⟨hg₃', hgrow₃'⟩ :=
    h.self.asks.bindImports h.self.namespaceKeys path' m _ _ _ _ _ hbind' hg₂'
  -- Both hosts have the same environment to prepare.
  have henv : ∀ {t : Machine σ κ}, base.Founded world second t → t.Has m →
      (t.setEnvironment m (record.complete env)).environment? m = some (record.complete env) :=
    fun ht hm => Machine.environment?_setEnvironment hm ((h.text.record hg.here ht.here m).trans hr)
  obtain ⟨s₁', hprepare', henv'⟩ := h.again.prepare
    (setEnvironment_grounds h.text hg₃ _).here (setEnvironment_grounds h.text hg₃' _).here
    ((henv hg₃' (hgrow₃' m (hgrow₂' m hm'))).trans (henv hg₃ (hgrow₃ m (hgrow₂ m hm))).symm)
    hprepare
  have hrun' := initializeSource_ok.2 ⟨s₂', env, s₃', hcheck', hbind', hprepare'⟩
  have hg₁' := (h.self.initializeSource_grounds path' m record _ _ _ hrun' hg').1
  refine ⟨s₁', hrun', ?_⟩
  rw [linkage_of_record hg₁' ((h.text.record hg.here hg₁'.here m).trans hr), henv',
    linkage_of_record hg₁ ((h.text.record hg.here hg₁.here m).trans hr)]

omit h in
theorem linkage_of_foreign {hasAwait : Bool} {s₂ s₃ : Machine σ κ} (hc : LinkConduct journal host)
    (hm : s.Has m) (hcyc : s.isCyclic m) (hr : s.record? m = none)
    (h₁ : host.initializeForeign m s = some (.ok (), s₂))
    (h₂ : host.instantiateForeign m s₂ = some (.ok hasAwait, s₃)) :
    (s₃.updateKind m (.instantiate hasAwait)).linkage m = ⟨none, true, hasAwait⟩ := by
  have hk := (Machine.Keeps.composes journal fun _ => False).trans
    (hc.initializeForeign m _ _ _ h₁) (hc.instantiateForeign m _ _ _ h₂)
  obtain ⟨i, c, hforeign⟩ := Machine.kind_of_foreign hcyc hr
  exact Machine.linkage_instantiate (hk.has m hm) ((hk.kind m hm id).trans hforeign)

theorem initializeForeign (hg : base.Founded world second s) (hg' : base.Founded world second s')
    (hm : s.Has m) (hc : s.isCyclic m) (hr : s.record? m = none)
    (hrun : ModuleGraph.initializeForeign first path m s = some (.ok (), s₁))
    (path' : List String) :
    ∃ s₁', ModuleGraph.initializeForeign second path' m s' = some (.ok (), s₁') ∧
      s₁'.linkage m = s₁.linkage m := by
  have hm' : s'.Has m := (h.text.has hg.here hg'.here).2 hm
  have hr' : s'.record? m = none := by rwa [h.text.record hg.here hg'.here]
  have hc' : s'.isCyclic m := by rwa [h.text.isCyclic hg.here hg'.here]
  obtain ⟨s₂, hasAwait, s₃, hinit, hinst, rfl⟩ := initializeForeign_ok.1 hrun
  obtain ⟨s₂', hinit'⟩ := h.again.initializeForeign m _ _ _ _ hg.here hg'.here hinit
  have hw₂ := ((h.before.initializeForeign m _ _ _ hinit).1 hg.here).1
  have hw₂' := ((h.after.initializeForeign m _ _ _ hinit').1 hg'.here).1
  obtain ⟨s₃', hinst'⟩ := h.again.instantiateForeign m _ _ _ _ hw₂ hw₂' hinst
  refine ⟨_, initializeForeign_ok.2 ⟨s₂', hasAwait, s₃', hinit', hinst', rfl⟩, ?_⟩
  rw [linkage_of_foreign h.before.conduct hm hc hr hinit hinst,
    linkage_of_foreign h.after.conduct hm' hc' hr' hinit' hinst']

/-- A module that the first host has initialized once, the second one can initialize at any time,
and makes the same of it. -/
theorem initializeModule (hg : base.Founded world second s) (hg' : base.Founded world second s')
    (hm : s.Has m) (hc : s.isCyclic m)
    (hrun : ModuleGraph.initializeModule first path m s = some (.ok (), s₁)) (path' : List String) :
    ∃ s₁', ModuleGraph.initializeModule second path' m s' = some (.ok (), s₁') ∧
      s₁'.linkage m = s₁.linkage m := by
  have hrecord' := h.text.record hg.here hg'.here m
  cases hr : s.record? m with
  | some record =>
    rw [initializeModule_of_record hr] at hrun
    rw [initializeModule_of_record (hrecord'.trans hr)]
    exact h.initializeSource hg hg' hm hr hrun path'
  | none =>
    rw [initializeModule_of_foreign hr] at hrun
    rw [initializeModule_of_foreign (hrecord'.trans hr)]
    exact h.initializeForeign hg hg' hm hc hr hrun path'

end Host.Replaces

end ModuleGraph

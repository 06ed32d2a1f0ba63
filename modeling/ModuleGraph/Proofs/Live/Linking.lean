import ModuleGraph.Proofs.Live.Invariant

/-! # Linking keeps bindings live

While a module is initialized the host looks up names, initializes and assigns bindings, and asks
for namespaces. None of this takes away an environment that fits, and no module is newly slated to
be evaluated. So a link, whether it succeeds or fails, leaves environments that fit and gives one to
each module that it links. -/

namespace ModuleGraph

open Relation

variable {σ κ : Type} {journal : σ → Journal} {world : Machine σ κ → Prop} {host : Host σ κ}
variable {s s' s₁ start : Machine σ κ} {m x : ModuleId}

theorem Asks.mono {R R' : Machine σ κ → Machine σ κ → Prop} (h : Asks host R) (hR : Composes R')
    (hmono : ∀ {s s'}, R s s' → R' s s') : Asks host R' where
  toComposes := hR
  resolve m request _ _ _ hrun := hmono (h.resolve m request _ _ _ hrun)
  exportedNames m _ _ _ hrun := hmono (h.exportedNames m _ _ _ hrun)
  resolveExport m name visited _ _ _ hrun := hmono (h.resolveExport m name visited _ _ _ hrun)

theorem ModuleKind.eq_of_setEnvironment {k : ModuleKind} {env env' : Environment}
    (h : (k.setEnvironment env).environment? = some env') : env' = env := by
  cases k <;> cases h
  rfl

/-! ## Single moments -/

theorem BindingFault.incidental_throw {α : Type} {fault : BindingFault} {name : String}
    {r : Except Value α} (h : (fault.throw name : Act σ κ α) s = some (r, s')) :
    s.Incidental s' := by
  cases h
  exact ⟨rfl, rfl, rfl, rfl, rfl, rfl, rfl, rfl⟩

theorem initializeBinding_cases {name : String} {v : Value} {r : Except Value Unit}
    (hrun : initializeBinding m name v s = some (r, s')) :
    (∃ env env', s.environment? m = some env ∧ env.Writes env' ∧ s' = s.setEnvironment m env') ∨
      s.Incidental s' := by
  rw [initializeBinding, Act.view_bind] at hrun
  cases henv : s.environment? m with
  | none =>
    rw [henv] at hrun
    exact .inr (BindingFault.incidental_throw hrun)
  | some env =>
    rw [henv] at hrun
    cases hfirst : env.initialize? name v with
    | none =>
      simp only [Option.bind_some, hfirst] at hrun
      exact .inr (BindingFault.incidental_throw hrun)
    | some env' =>
      simp only [Option.bind_some, hfirst] at hrun
      cases hrun
      exact .inl ⟨env, env', rfl, .first hfirst, rfl⟩

theorem assignBinding_cases {name : String} {v : Value} {r : Except Value Unit}
    (hrun : assignBinding m name v s = some (r, s')) :
    (∃ env env', s.environment? m = some env ∧ env.Writes env' ∧ s' = s.setEnvironment m env') ∨
      s.Incidental s' := by
  rw [assignBinding, Act.view_bind] at hrun
  cases henv : s.environment? m with
  | none =>
    rw [henv] at hrun
    exact .inr (BindingFault.incidental_throw hrun)
  | some env =>
    rw [henv] at hrun
    cases hnext : env.assign name v with
    | error fault =>
      simp only [hnext] at hrun
      exact .inr (BindingFault.incidental_throw hrun)
    | ok env' =>
      simp only [hnext] at hrun
      cases hrun
      exact .inl ⟨env, env', rfl, .next hnext, rfl⟩

namespace Machine

theorem has_of_environment {env : Environment} (h : s.environment? m = some env) : s.Has m := by
  by_contra hm
  rw [environment?, module_of_not_has hm] at h
  cases h

theorem Develops.environment {env : Environment} (h : s.Develops journal s')
    (henv : s.environment? m = some env) : ∃ env', s'.environment? m = some env' := by
  obtain ⟨env', henv', -⟩ := (h.kind m (has_of_environment henv)).bound env henv
  exact ⟨env', henv'⟩

/-- Nothing happens to the modules, and no module is newly slated. -/
theorem Incidental.develops (h : s.Incidental s') :
    s.Develops journal s' ∧ ∀ x, s'.Slated x → s.Slated x := by
  have hkeeps : s.Keeps journal (fun _ => False) s' :=
    .of_modules h.modules ⟨[], Journal.answers_nil, by rw [h.host, List.append_nil]⟩
  have hbodies : ∀ r x, s'.handler? r = some (.bodyEnded x) →
      ∃ r, s.handler? r = some (.bodyEnded x) := fun r x hr => by
    rw [handler?, reaction?, h.reactions] at hr
    exact ⟨r, hr⟩
  exact ⟨hkeeps.develops hbodies, fun _ hx => hkeeps.slated hbodies hx⟩

/-- The values of an environment change, and no module is newly slated. -/
theorem develops_setEnvironment {env env' : Environment} (henv : s.environment? m = some env)
    (hw : env.Writes env') :
    s.Develops journal (s.setEnvironment m env') ∧
      ∀ x, (s.setEnvironment m env').Slated x → s.Slated x := by
  have hslated : ∀ x, (s.setEnvironment m env').Slated x → s.Slated x := fun x hx => by
    refine Slated.of_updateModule (m := m)
      (f := fun x => { x with kind := x.kind.setEnvironment env' }) ?_ hx
    cases (s.module m).kind <;> rfl
  refine ⟨.updateModule s m (fun _ => ?_) fun x hx => .inl (hslated x hx), hslated⟩
  exact ModuleKind.Develops.write henv hw

theorem within_keys (m : ModuleId) :
    Within (ReflTransGen (Machine.Instant journal world host)) (host.namespaceKeys m) :=
  fun _ _ _ hrun => .single (.keys hrun)

/-- At each moment the modules develop, and none is newly slated. -/
theorem Instant.develops (h : Asks host (Machine.Peeks journal world))
    (hs : s.Instant journal world host s') :
    s.Develops journal s' ∧ ∀ x, s'.Slated x → s.Slated x := by
  cases hs with
  | peek hs => exact ⟨hs.keeps.develops hs.bodies, fun _ hx => hs.keeps.slated hs.bodies hx⟩
  | first hrun =>
    obtain ⟨env, env', henv, hw, rfl⟩ | hs := initializeBinding_cases hrun
    · exact develops_setEnvironment henv hw
    · exact hs.develops
  | next hrun =>
    obtain ⟨env, env', henv, hw, rfl⟩ | hs := assignBinding_cases hrun
    · exact develops_setEnvironment henv hw
    · exact hs.develops
  | @keys n _ hrun =>
    obtain ⟨s₁, hs, rfl | ⟨keys, rfl⟩⟩ := h.namespaceKeys_cases hrun
    · exact ⟨hs.keeps.develops hs.bodies, fun _ hx => hs.keeps.slated hs.bodies hx⟩
    · have hkeeps := (Keeps.composes journal _).trans hs.keeps (Keeps.exports journal s₁ n keys)
      exact ⟨hkeeps.develops hs.bodies, fun _ hx => hkeeps.slated hs.bodies hx⟩

end Machine

namespace ExportGraph

variable {G : ExportGraph} {path : List String}

/-! ## Machines while a link is under way -/

/-- A machine while a link is under way. The namespaces list what they should, the environments fit,
and no module is newly slated. -/
structure Firm (G : ExportGraph) (world : Machine σ κ → Prop) (start s : Machine σ κ) : Prop where
  here : world s
  kept : G.Kept s
  fits : G.Fitting s
  has : ∀ x, start.Has x → s.Has x
  slated : ∀ x, s.Slated x → start.Slated x

theorem Kept.of_exports (h : G.Kept s) (he : ∀ m, (s'.module m).exports = (s.module m).exports) :
    G.Kept s' := fun m hm keys hk => h m hm keys (by rw [← he m, hk])

theorem Kept.updateKind (h : G.Kept s) (f : ModuleKind → ModuleKind) :
    G.Kept (s.updateKind m f) := by
  refine h.of_exports fun n => ?_
  by_cases hm : s.Has m
  · rw [Machine.updateKind, Machine.module_updateModule _ _ _ _ hm]
    split <;> rfl
  · rw [Machine.updateKind, Machine.updateModule_of_not_has _ hm]

namespace Animates

variable (h : G.Animates journal world host)
include h

theorem here_updateKind (hw : world s) {f : ModuleKind → ModuleKind}
    (hf : ∀ k : ModuleKind, k.SameText (f k)) : world (s.updateKind m f) :=
  (h.text s m (fun x => hf x.kind) hw).1

/-- At each moment the world and the kept keys stay right. -/
theorem instant (hdepth : G.bound < host.depth) (hs : s.Instant journal world host s')
    (hw : world s) (hk : G.Kept s) : world s' ∧ G.Kept s' := by
  have hwrite : ∀ m env, world (s.setEnvironment m env) ∧ G.Kept (s.setEnvironment m env) :=
    fun m env => by
      refine ⟨h.here_updateKind hw fun k => ?_, hk.updateKind _⟩
      cases k <;> exact ⟨rfl, rfl⟩
  have hbeside : s.Incidental s' → world s' ∧ G.Kept s' := fun hs =>
    ⟨(h.aside (.of_eq hs.modules hs.host) hw).1, hk.of_exports fun m => by
      rw [Machine.module, hs.modules, Machine.module]⟩
  cases hs with
  | peek hs => exact ⟨(hs.spares.1 hw).1, hk.of_exports hs.spares.2⟩
  | first hrun =>
    obtain ⟨env, env', -, -, rfl⟩ | hs := initializeBinding_cases hrun
    · exact hwrite _ env'
    · exact hbeside hs
  | next hrun =>
    obtain ⟨env, env', -, -, rfl⟩ | hs := assignBinding_cases hrun
    · exact hwrite _ env'
    · exact hbeside hs
  | keys hrun =>
    have hasks := h.lookups.mono (Machine.SparesKeys.composes world) fun hs => hs.spares
    exact ⟨(h.serves.namespaceKeys _ _ _ _ hrun hw).1,
      kept_of_namespaceKeys h.serves hasks hdepth hw hk hrun⟩

theorem asks : Asks host (ReflTransGen (Machine.Instant journal world host)) :=
  h.lookups.mono (.reflTransGen _) fun hs => .single (.peek hs)

end Animates

section Firm

variable (h : G.Animates journal world host) (hdepth : G.bound < host.depth)
include h hdepth

theorem Firm.instants (hs : ReflTransGen (Machine.Instant journal world host) s s')
    (hf : G.Firm world start s) :
    G.Firm world start s' ∧ (∀ m, s.Has m → s'.Has m) ∧
      ∀ m env, s.environment? m = some env → ∃ env', s'.environment? m = some env' := by
  induction hs with
  | refl => exact ⟨hf, fun _ => id, fun m env henv => ⟨env, henv⟩⟩
  | tail _ hs ih =>
    obtain ⟨hf, hhas, henv⟩ := ih
    obtain ⟨hdevelops, hslated⟩ := hs.develops h.lookups
    obtain ⟨hw, hk⟩ := h.instant hdepth hs hf.here hf.kept
    refine ⟨⟨hw, hk, hf.fits.develops hdevelops, fun x hx => hdevelops.has x (hf.has x hx),
      fun x hx => hf.slated x (hslated x hx)⟩, fun m hm => hdevelops.has m (hhas m hm),
      fun m env he => ?_⟩
    obtain ⟨env₁, he₁⟩ := henv m env he
    exact hdevelops.environment he₁

omit hdepth in
theorem Firm.updateKind (hf : G.Firm world start s) {f : ModuleKind → ModuleKind}
    (hf' : ∀ k : ModuleKind, k.SameLeads (f k))
    (hfits : ∀ record env, G.source m = some record → s.Has m →
      (f (s.module m).kind).environment? = some env → G.Fits m record env) :
    G.Firm world start (s.updateKind m f) := by
  by_cases hm : s.Has m
  · have hkind : ∀ n, ((s.updateKind m f).module n).kind =
        if n = m then f (s.module n).kind else (s.module n).kind :=
      fun _ => Machine.kind_updateKind f hm
    refine ⟨h.here_updateKind hf.here fun k => (hf' k).sameText, hf.kept.updateKind f,
      fun n record env hsource henv => ?_, fun x hx => ?_, fun x hx => hf.slated x ?_⟩
    · rw [Machine.environment?, hkind] at henv
      split at henv
      · rename_i e
        subst e
        exact hfits record env hsource hm henv
      · exact hf.fits n record env hsource henv
    · exact (Machine.has_updateModule _).2 (hf.has x hx)
    · exact .of_updateModule (hf' _).leads hx
  · rwa [Machine.updateKind, Machine.updateModule_of_not_has _ hm]

end Firm

/-! ## Links -/

section Links

variable (h : G.Animates journal world host) (hparsed : G.Parsed)
variable (hdepth : G.bound < host.depth)
include h hparsed

theorem Animates.has_record (hw : world s) (hm : s.Has m) :
    ∃ record, G.source m = some record ∧ s.record? m = some record := by
  obtain ⟨record, hsource⟩ := hparsed.source m (h.all hw hm)
  exact ⟨record, hsource, (h.serves.record hw (h.all hw hm) hm).trans hsource⟩

include hdepth

/-- The initialization of a module gives it an environment that fits. -/
theorem Firm.initializeModule (hf : G.Firm world start s) (hm : s.Has m)
    {r : Except LinkError Unit} (hrun : initializeModule host path m s = some (r, s')) :
    G.Firm world start s' ∧ (r = .ok () → ∃ env, s'.environment? m = some env) := by
  obtain ⟨record, hsource, hrecord⟩ := h.has_record hparsed hf.here hm
  rw [initializeModule_of_record hrecord] at hrun
  have hcheck := Within.forM (.reflTransGen _) (h.asks.checkIndirect path m) record.indirectExports
  have hbind := h.asks.bindImports Machine.within_keys path m record.imports .empty
  obtain ⟨e, h₁, rfl⟩ | ⟨s₁, h₁, ⟨e, h₂, rfl⟩ | ⟨env, s₂, x, h₂, h₃, -⟩⟩ :=
    initializeSource_cases hrun
  · exact ⟨(hf.instants h hdepth (hcheck _ _ _ h₁)).1, nofun⟩
  · have hf₁ := (hf.instants h hdepth (hcheck _ _ _ h₁)).1
    exact ⟨(hf₁.instants h hdepth (hbind _ _ _ h₂)).1, nofun⟩
  · obtain ⟨hf₁, hgrow₁, -⟩ := hf.instants h hdepth (hcheck _ _ _ h₁)
    obtain ⟨hf₂, hgrow₂, -⟩ := hf₁.instants h hdepth (hbind _ _ _ h₂)
    have hm₂ := hgrow₂ m (hgrow₁ m hm)
    have hfits : G.Fits m record (record.complete env) :=
      fits_of_bindImports h.serves hparsed.listed hdepth hsource (hparsed.scoped hsource)
        (h.all hf.here hm) hf₁.here (hgrow₁ m hm) h₂
    have hset : G.Firm world start (s₂.setEnvironment m (record.complete env)) := by
      refine hf₂.updateKind h (fun k => ?_) fun record' env' hsource' hm henv => ?_
      · cases k <;> exact ⟨rfl, rfl, fun _ e => by cases e <;> rfl⟩
      · cases hsource'.symm.trans hsource
        rw [ModuleKind.eq_of_setEnvironment henv]
        exact hfits
    obtain ⟨hf', -, hgrow⟩ := hset.instants h hdepth (h.prepare m _ _ _ h₃)
    have hrecord₂ : s₂.record? m = some record :=
      (h.serves.record hf₂.here (h.all hf₂.here hm₂) hm₂).trans hsource
    exact ⟨hf', fun _ => hgrow m _ (Machine.environment?_setEnvironment hm₂ hrecord₂)⟩

/-- A host that animates the graph links on firm ground, and each module that a link initializes has
an environment. -/
theorem Animates.linkTerms (start : Machine σ κ) :
    LinkTerms journal start (G.Firm world start) (fun _ => True)
      (fun _ l => ∃ env, l.environment = some env) host where
  conduct := h.conduct
  resolve hf hrun :=
    (hf.instants h hdepth (.single (.peek (h.lookups.resolve _ _ _ _ _ hrun)))).1
  reaches _ _ _ _ _ _ := trivial
  linkLeaf {s m r s'} hf hk hrun := by
    -- All modules have records, so there are no leaves.
    have hleaf : s.record? m = none := by
      rw [Machine.record?, hk]
      rfl
    by_cases hm : s.Has m
    · obtain ⟨record, -, hrecord⟩ := h.has_record hparsed hf.here hm
      rw [hleaf] at hrecord
      cases hrecord
    · rw [Machine.module_of_not_has hm] at hk
      cases hk
  initializes {path s m r s'} hf hm _ _ hrun := by
    obtain ⟨hf', hmade⟩ := hf.initializeModule h hparsed hdepth hm hrun
    refine ⟨hf', fun hr => ?_⟩
    obtain ⟨env, henv⟩ := hmade hr
    exact ⟨env, (ModuleKind.linkage_environment _).trans henv⟩
  update {s m f} hf hrelabels := by
    refine hf.updateKind h (fun k => (hrelabels k).leads) fun record env hsource hm henv => ?_
    rcases (hrelabels (s.module m).kind).environment with e | e
    · exact hf.fits m record env hsource (e.symm.trans henv)
    · cases e.symm.trans henv

/-- After a link the machine is live again, whether the link succeeds or fails. -/
theorem Live.link (hlive : G.Live journal world s) (hm : s.Has m)
    {result : Except LinkError Unit} (hrun : host.link m s = some (result, s')) :
    G.Live journal world s' ∧ (∀ m, s.Has m → s'.Has m) ∧
      ∀ m, (s.status m).IsLinked → (s'.status m).IsLinked := by
  have hf : G.Firm world s s := ⟨hlive.here, hlive.kept, hlive.fits, fun _ => id, fun _ => id⟩
  obtain ⟨hf', -, hmade⟩ := (h.linkTerms hparsed hdepth s).link hf hlive.rest hm trivial hrun
  obtain ⟨hin, -⟩ := Machine.link_ends h.conduct hlive.rest hm hrun
  have hlinked : ∀ x, (s.status x).IsLinked → (s'.status x).IsLinked := fun x hx => by
    rwa [Machine.status, hin.kept x hx]
  refine ⟨⟨hf'.here, hin.atRest, hf'.kept, hf'.fits, fun x hx => ?_, fun x hx => ?_⟩,
    hf'.has, hlinked⟩
  · rcases hmade x hx with hx | ⟨env, henv⟩
    · obtain ⟨env, henv⟩ := hlive.bound x hx
      exact ⟨env, by rwa [Machine.environment?, hin.kept x hx]⟩
    · exact ⟨env, (ModuleKind.linkage_environment _).symm.trans henv⟩
  · exact hlinked x (hlive.slated x (hf'.slated x hx))

/-- Whatever happens at one moment while bodies run, a live machine stays live. -/
theorem Animates.errand (hs : s.Errand journal world host s') : G.StaysLive journal world s s' := by
  intro hlive
  cases hs with
  | «instant» hs =>
    obtain ⟨hw, hk⟩ := h.instant hdepth hs hlive.here hlive.kept
    exact hlive.develops (hs.develops h.lookups).1 hw hk
  | develop hspares hs =>
    exact hlive.develops hs (hspares.1 hlive.here).1 (hlive.kept.of_exports hspares.2)
  | link hm hrun => exact hlive.link h hparsed hdepth hm hrun

end Links

end ExportGraph

end ModuleGraph

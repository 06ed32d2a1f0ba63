import ModuleGraph.Proofs.Exports.Linkable
import ModuleGraph.Proofs.Operations.Jobs

/-! # Namespaces at all times

The keys of a namespace are fixed when it is first asked for, at whatever time that is. They are the
names that resolve, since neither the texts of the modules nor the answers to their requests change.
The keys that are kept for a module are therefore those that would be found again. -/

namespace ModuleGraph

open Relation

variable {σ κ : Type}

namespace Machine

def SparesKeys (world : Machine σ κ → Prop) (s s' : Machine σ κ) : Prop :=
  Stays world s s' ∧ ∀ m, (s'.module m).exports = (s.module m).exports

theorem SparesKeys.composes (world : Machine σ κ → Prop) : Composes (SparesKeys world) where
  refl s := ⟨(Stays.composes world).refl s, fun _ => rfl⟩
  trans h h' := ⟨(Stays.composes world).trans h.1 h'.1, fun m => (h'.2 m).trans (h.2 m)⟩

theorem SparesKeys.of_modules {world : Machine σ κ → Prop} {s s' : Machine σ κ}
    (h : Stays world s s') (hm : s'.modules = s.modules) : SparesKeys world s s' :=
  ⟨h, fun m => by rw [module, hm, module]⟩

/-- What happens at one moment: the host or an operation changes something else than the keys of
namespaces, or asks for the keys of one. -/
inductive Moment (world : Machine σ κ → Prop) (host : Host σ κ) (s s' : Machine σ κ) : Prop
  | change : s.SparesKeys world s' → Moment world host s s'
  | keys {m : ModuleId} {r : Except Value (List String)} :
      host.namespaceKeys m s = some (r, s') → Moment world host s s'

/-- What happens between two states: one moment, which may be in the midst of an operation, or a
whole operation. -/
inductive Operation (world : Machine σ κ → Prop) (host : Host σ κ) (s s' : Machine σ κ) : Prop
  | moment : Moment world host s s' → Operation world host s s'
  | link {m : ModuleId} {result : Except LinkError Unit} :
      host.link m s = some (result, s') → Operation world host s s'
  | evaluate {m : ModuleId} {p : PromiseId} :
      host.evaluate m s = some (p, s') → Operation world host s s'
  | importCall {referrer : Referrer} {specifier : Value} {p : PromiseId} :
      host.importCall referrer specifier s = some (p, s') → Operation world host s s'
  | finishImport {ticket : TicketId} {found : Except Value ModuleId} :
      host.finishImport ticket found s = some ((), s') → Operation world host s s'
  | importMeta {m : ModuleId} {o : ObjectId} :
      host.importMeta m s = some (o, s') → Operation world host s s'
  | job {r : Except Value Bool} : runNextJob host s = some (r, s') → Operation world host s s'
  | jobs {r : Except Value Unit} : host.runJobs s = some (r, s') → Operation world host s s'

theorem namespaceKeys_of_not_has {host : Host σ κ} {m : ModuleId} {s s' : Machine σ κ}
    {r : Except Value (List String)} (hm : ¬s.Has m)
    (hrun : host.namespaceKeys m s = some (r, s')) : s' = s := by
  have hkept : (s.module m).exports = none := by
    rw [module_of_not_has hm]
    rfl
  have hrecord : s.record? m = some default := by
    rw [record?, module_of_not_has hm]
    rfl
  rw [Host.namespaceKeys, Act.view_bind] at hrun
  simp only [hkept] at hrun
  cases hdepth : host.depth with
  | zero =>
    rw [hdepth] at hrun
    cases hrun
  | succ depth =>
    have hnames : exportedNames host (depth + 1) m [] s = some (.ok (some [], [m]), s) := by
      rw [exportedNames, if_neg (by simp), Act.view_bind, hrecord]
      rfl
    rw [hdepth] at hrun
    obtain ⟨found, s₁, h₁, h₂⟩ | ⟨e, h₁, -⟩ := throwing_bind.1 hrun
    · rw [hnames] at h₁
      cases h₁
      cases h₂
      exact updateModule_of_not_has _ hm
    · rw [hnames] at h₁
      cases h₁

end Machine

namespace ExportGraph

/-- A host that serves a graph all the time. No hook changes what a namespace keeps, and those that
are not called to look up names may ask for namespaces too; what happens to promises, and updates of
modules that leave their texts, does not lead out of the world. -/
structure Attends (G : ExportGraph) (world : Machine σ κ → Prop) (host : Host σ κ) : Prop where
  serves : G.Serves world host
  lookups : Asks host (Machine.SparesKeys world)
  hooks : Hooks host (ReflTransGen (Machine.Moment world host))
  aside : ∀ {s s'}, s.Aside host.track s' → Machine.Stays world s s'
  update : ∀ s m {f}, (∀ x : Module, x.SameText (f x)) → Machine.Stays world s (s.updateModule m f)

/-- The keys that are kept are the names that stand for one binding. -/
def Kept (G : ExportGraph) (s : Machine σ κ) : Prop :=
  ∀ m ∈ G.modules, ∀ keys, (s.module m).exports = some keys → G.IsKeys m keys

variable {G : ExportGraph} {world : Machine σ κ → Prop} {host : Host σ κ} {s s' : Machine σ κ}
variable {m : ModuleId}

/-- The kept keys stay right when those of one more module are asked for. -/
theorem kept_of_namespaceKeys {n : ModuleId} {r : Except Value (List String)}
    (h : G.Serves world host) (hl : Asks host (Machine.SparesKeys world))
    (hdepth : G.bound < host.depth) (hw : world s) (hkept : G.Kept s)
    (hrun : host.namespaceKeys n s = some (r, s')) : G.Kept s' := by
  have hspared : ∀ {s₁}, s.SparesKeys world s₁ → G.Kept s₁ := fun hs m hm keys hk =>
    hkept m hm keys (by rw [← hs.2 m, hk])
  cases hold : (s.module n).exports with
  | some keys =>
    rw [Host.namespaceKeys_of_kept hold] at hrun
    cases hrun
    exact hkept
  | none =>
    obtain ⟨found, s₁, hfound, rfl, rfl⟩ | ⟨e, hfound, -⟩ := Host.namespaceKeys_found hold hrun
    · intro m hm keys hk
      by_cases hn : s.Has n
      · by_cases e : m = n
        · subst e
          obtain ⟨r, s₂, hrun', -, hend⟩ := namespaceKeys_returns h hdepth hw hm hn
          cases hrun.symm.trans hrun'
          obtain ⟨hk', hkeys⟩ := hend
          cases hk.symm.trans hk'
          exact hkeys.elim (hkept m hm _) id
        · rw [Machine.module_updateModule_of_ne _ _ (Ne.symm e)] at hk
          exact hspared (hl.findKeys n _ _ _ hfound) m hm keys hk
      · rw [Machine.namespaceKeys_of_not_has hn hrun] at hk
        exact hkept m hm keys hk
    · exact hspared (hl.findKeys n _ _ _ hfound)

theorem Attends.carries (h : G.Attends world host) :
    CarriesJobs host (.plain (ReflTransGen (Machine.Moment world host))) := by
  refine .of_sameText (.reflTransGen _) h.hooks (fun _ _ _ _ hrun => .single (.keys hrun))
    (fun ha => .single (.change (.of_modules (h.aside ha) ha.1))) fun s m f hf => ?_
  refine .single (.change ⟨h.update s m hf, fun n => ?_⟩)
  by_cases hm : s.Has m
  · rw [Machine.module_updateModule s m n f hm]
    split
    · exact (hf _).2
    · rfl
  · rw [Machine.updateModule_of_not_has f hm]

/-- Operations are made of moments. -/
theorem Attends.moments (h : G.Attends world host) (hs : Machine.Operation world host s s') :
    ReflTransGen (Machine.Moment world host) s s' := by
  cases hs with
  | moment hs => exact .single hs
  | link hrun => exact h.carries.link trivial hrun
  | evaluate hrun => exact h.carries.evaluate _ _ _ _ hrun
  | importCall hrun => exact h.carries.importCall (h.carries.requested _) _ _ _ _ hrun
  | finishImport hrun => exact h.carries.finishImport (fun _ _ => trivial) hrun
  | importMeta hrun => exact h.carries.importMeta _ _ _ _ hrun
  | job hrun => exact h.carries.runNextJob _ _ _ hrun
  | jobs hrun => exact h.carries.runJobs _ _ _ hrun

section Attends

variable (h : G.Attends world host)
variable (ht : ∀ m ∈ G.modules, ∀ request, ∃ n, G.target m request = some n)
variable (hdepth : G.bound < host.depth)
include h ht hdepth

omit ht in
theorem Attends.moment (hs : Machine.Moment world host s s') :
    Machine.Stays (fun s => world s ∧ G.Kept s) s s' := by
  rintro ⟨hw, hkept⟩
  cases hs with
  | change hs =>
    obtain ⟨hw', hgrow⟩ := hs.1 hw
    exact ⟨⟨hw', fun m hm keys hk => hkept m hm keys (by rw [← hs.2 m, hk])⟩, hgrow⟩
  | keys hrun =>
    obtain ⟨hw', hgrow⟩ := h.serves.namespaceKeys _ s _ s' hrun hw
    exact ⟨⟨hw', kept_of_namespaceKeys h.serves h.lookups hdepth hw hkept hrun⟩, hgrow⟩

omit ht in
theorem Attends.run (hs : ReflTransGen (Machine.Operation world host) s s') :
    Machine.Stays (fun s => world s ∧ G.Kept s) s s' := by
  have hc := Machine.Stays.composes fun s => world s ∧ G.Kept s
  have hmoments : ∀ {s s'}, ReflTransGen (Machine.Moment world host) s s' →
      Machine.Stays (fun s => world s ∧ G.Kept s) s s' := by
    intro s s' hs
    induction hs with
    | refl => exact hc.refl s
    | tail _ hs ih => exact hc.trans ih (h.moment hdepth hs)
  induction hs with
  | refl => exact hc.refl s
  | tail _ hs ih => exact hc.trans ih (hmoments (h.moments hs))

/-- While the kept keys are right, a call gives the right keys. -/
theorem Attends.namespaceKeys (hw : world s) (hkept : G.Kept s) (hm : m ∈ G.modules)
    (hh : s.Has m) :
    ∃ keys s', host.namespaceKeys m s = some (.ok keys, s') ∧ G.IsKeys m keys := by
  obtain ⟨r, s', hrun, -, hend⟩ := namespaceKeys_returns h.serves hdepth hw hm hh
  cases r with
  | error e => exact absurd hend (not_obscured ht hm)
  | ok keys => exact ⟨keys, s', hrun, hend.2.elim (hkept m hm keys) id⟩

/-- The namespace of a module in a finite graph whose requests all have answers, in whatever state a
run has led to: before, during or after linking, and with whatever namespaces kept from before. It
is there, and its keys are exactly the names that resolve to a binding, in strictly increasing order
of their 16-bit units. Every later call gives the same keys. -/
theorem namespace_lists_resolvable_exports {s₀ : Machine σ κ} (hw : world s₀)
    (hfresh : ∀ m, (s₀.module m).exports = none)
    (hs : ReflTransGen (Machine.Operation world host) s₀ s) (hm : m ∈ G.modules) (hh : s.Has m) :
    ∃ keys s', host.namespaceOf m s = some (.ok (.namespace m), s') ∧
      host.namespaceKeys m s = some (.ok keys, s') ∧ keys.Pairwise Text.Precedes ∧
      (∀ n, n ∈ keys ↔
        ∃ t b s₁, host.resolution m n s = some (.ok (some (.found t b)), s₁)) ∧
      ∀ s₁, ReflTransGen (Machine.Operation world host) s' s₁ →
        ∃ s₂, host.namespaceKeys m s₁ = some (.ok keys, s₂) := by
  have hkept₀ : G.Kept s₀ := by
    intro m _ keys hk
    rw [hfresh m] at hk
    cases hk
  obtain ⟨⟨hws, hkept⟩, -⟩ := h.run hdepth hs ⟨hw, hkept₀⟩
  obtain ⟨keys, s', hrun, hkeys⟩ := h.namespaceKeys ht hdepth hws hkept hm hh
  refine ⟨keys, s', throwing_bind.2 (.inl ⟨keys, s', hrun, rfl⟩), hrun, hkeys.increasing,
    fun n => ?_, fun s₁ hs₁ => ?_⟩
  · obtain ⟨r, s₁, hres, htells⟩ := resolution_tells h.serves hdepth hws hm hh n
    rw [hkeys.mem_iff, hres]
    cases r with
    | ok resolution =>
      rw [← htells.found_iff]
      simp
    | error e =>
      cases htells with
      | threw hq hb => exact absurd hb (not_blocked ht (mem_of_leads hq hm))
  · have hasked : Machine.Stays (fun s => world s ∧ G.Kept s) s s' :=
      h.moment hdepth (.keys hrun)
    have hlater := (Machine.Stays.composes _).trans hasked (h.run hdepth hs₁)
    obtain ⟨⟨hw₁, hkept₁⟩, hgrow⟩ := hlater ⟨hws, hkept⟩
    obtain ⟨keys', s₂, hrun', hkeys'⟩ := h.namespaceKeys ht hdepth hw₁ hkept₁ hm (hgrow m hh)
    exact ⟨s₂, by rw [hrun', hkeys.unique hkeys']⟩

end Attends

end ExportGraph

/-! ## The graph of a plan -/

namespace Plan

variable {plan : Plan} {base : Machine Journal ModuleId}

theorem spares_note {entry : Machine Journal ModuleId → Entry}
    (he : ∀ s m request n, entry s ≠ .resolved m request n) :
    Within (Machine.SparesKeys (plan.Shows base)) (Act.note entry) := by
  refine Within.update fun s => .of_modules (Shows.of_modules rfl fun hr => ?_) rfl
  rcases List.mem_append.1 hr with hr | hr
  · exact .inl hr
  · exact absurd (List.mem_singleton.1 hr).symm (he s _ _ _)

theorem spares_answer (plan : Plan) (base : Machine Journal ModuleId) (m : ModuleId)
    (request : String) : Within (Machine.SparesKeys (plan.Shows base)) (plan.answer m request) := by
  intro s r s' hrun
  exact .of_modules (plan.stays_answer base m request s r s' hrun) (answer_beside hrun).1

theorem spares_beside {s s' : Machine Journal ModuleId} (hm : s'.modules = s.modules)
    (hh : s'.host = s.host) : Machine.SparesKeys (plan.Shows base) s s' :=
  .of_modules (Shows.of_modules hm fun he => .inl (hh ▸ he)) hm

section Hooks

variable {R : Machine Journal ModuleId → Machine Journal ModuleId → Prop} (hc : Composes R)
variable (hnote : ∀ {entry : Machine Journal ModuleId → Entry},
  (∀ s m request n, entry s ≠ .resolved m request n) → Within R (Act.note entry))
include hc hnote

theorem within_start (plan : Plan) (m : ModuleId) : Within R (plan.start m) := by
  refine Within.bind hc (hnote fun _ _ _ _ => nofun) fun _ => ?_
  cases plan.body m with
  | completes => exact Within.bind hc (hnote fun _ _ _ _ => nofun) fun _ => Within.pure hc _
  | throws reason =>
    exact Within.bind hc (hnote fun _ _ _ _ => nofun) fun _ => Within.throw hc reason
  | waits promise =>
    exact Within.bind hc (hnote fun _ _ _ _ => nofun) fun _ => Within.pure hc _

theorem within_proceed (m : ModuleId) (settlement : Settlement) :
    Within R (proceed m settlement) := by
  cases settlement with
  | fulfilled v => exact Within.bind hc (hnote fun _ _ _ _ => nofun) fun _ => Within.pure hc _
  | rejected reason =>
    exact Within.bind hc (hnote fun _ _ _ _ => nofun) fun _ => Within.throw hc reason

/-- A relation that holds across the notes and the answers of a plan, and where no module and
nothing of the journal changes, holds across all hooks of the host. -/
theorem exporting_within (plan : Plan) (names : ModuleId → List String) (depth : Nat)
    (hanswer : ∀ m request, Within R (plan.answer m request))
    (hbeside : ∀ {s s' : Machine Journal ModuleId}, s'.modules = s.modules →
      s'.reactions = s.reactions → s'.host = s.host → R s s') :
    Hooks (plan.exporting names depth) R where
  resolve referrer specifier := by
    cases referrer with
    | module m => exact hanswer m specifier
    | script i =>
      intro s r s' hrun
      cases hrun
      exact hbeside rfl rfl rfl
  prepare _ := Within.pure hc _
  execute := within_start hc hnote plan
  resume := within_proceed hc hnote
  call _ settlement := Within.ofExcept hc settlement.toExcept
  linkLeaf _ := Within.pure hc _
  evaluateLeaf _ := Within.bind hc (hnote fun _ _ _ _ => nofun) fun _ => hnote fun _ _ _ _ => nofun
  initializeForeign _ := Within.pure hc _
  instantiateForeign _ := Within.pure hc _
  executeForeign := within_start hc hnote plan
  exportedNames _ := Within.pure hc _
  resolveExport _ _ _ := Within.pure hc _
  importRequested _ _ _ := Along.update fun _ => hbeside rfl rfl rfl
  metaProperties _ := Along.pure hc _
  finishMeta _ _ := Along.pure hc _

end Hooks

theorem exporting_hooks (plan : Plan) (names : ModuleId → List String)
    (base : Machine Journal ModuleId) (depth : Nat) :
    Hooks (plan.exporting names depth) (Machine.SparesKeys (plan.Shows base)) :=
  exporting_within (Machine.SparesKeys.composes _) spares_note plan names depth
    (plan.spares_answer base) fun hm _ hh => spares_beside hm hh

theorem attends (plan : Plan) (names : ModuleId → List String) (base : Machine Journal ModuleId)
    (depth : Nat) :
    (plan.graph names base).Attends (plan.Shows base) (plan.exporting names depth) where
  serves := plan.serves names base depth
  lookups := (plan.exporting_hooks names base depth).asks (Machine.SparesKeys.composes _)
  hooks := (plan.exporting_hooks names base depth).mono fun hs => .single (.change hs)
  aside {s s'} ha := by
    -- The host of a plan does not keep what it is told of promises.
    have hhost : ∀ k, ReflTransGen
        (fun h h' => ∃ p e, h' = (plan.exporting names depth).track p e h) s.host k →
          k = s.host := by
      intro k hk
      induction hk with
      | refl => rfl
      | tail _ hstep ih =>
        obtain ⟨_, _, rfl⟩ := hstep
        exact ih
    exact (spares_beside ha.1 (hhost s'.host ha.2)).1
  update s m _ hf := plan.stays_updateModule base s m fun x => (hf x).1

end Plan

namespace Entangled

def linked : Machine Journal ModuleId :=
  (((plan.exporting names 9).link ⟨0⟩ modules).get (by rfl)).2

theorem link_modules : (plan.exporting names 9).link ⟨0⟩ modules = some (.ok (), linked) := by
  rfl

theorem exports_modules (m : ModuleId) : (modules.module m).exports = none := by
  match m with
  | ⟨0⟩ => rfl
  | ⟨1⟩ => rfl
  | ⟨2⟩ => rfl
  | ⟨3⟩ => rfl
  | ⟨n + 4⟩ =>
    rw [module_default]
    rfl

end Entangled

open Entangled in
/-- The namespace of the first module of the cycle, after it was linked. -/
theorem namespace_lists_resolvable_exports_entangled :
    (plan.graph names modules).bound < 9 ∧ (∀ m, (modules.module m).exports = none) ∧
    (plan.exporting names 9).link ⟨0⟩ modules = some (.ok (), linked) ∧
    ∃ keys s', (plan.exporting names 9).namespaceOf ⟨0⟩ linked =
        some (.ok (.namespace ⟨0⟩), s') ∧
      (plan.exporting names 9).namespaceKeys ⟨0⟩ linked = some (.ok keys, s') ∧
      keys.Pairwise Text.Precedes ∧
      (∀ n, n ∈ keys ↔ ∃ t b s₁,
        (plan.exporting names 9).resolution ⟨0⟩ n linked = some (.ok (some (.found t b)), s₁)) ∧
      ∀ s₁, ReflTransGen
          (Machine.Operation (plan.Shows modules) (plan.exporting names 9)) s' s₁ →
        ∃ s₂, (plan.exporting names 9).namespaceKeys ⟨0⟩ s₁ = some (.ok keys, s₂) := by
  have hbound : (plan.graph names modules).bound < 9 := by decide
  refine ⟨hbound, exports_modules, link_modules, ExportGraph.namespace_lists_resolvable_exports
    (plan.attends names modules 9) (fun m _ request => ?_) hbound (plan.shows_self rfl)
    exports_modules (.single (.link link_modules)) (Plan.mem_graph.2 ?_) ?_⟩
  · obtain ⟨n, hn, hlt⟩ := target_made m request
    exact ⟨n, Plan.target_graph.2 ⟨hn, hlt⟩⟩
  · exact (by decide : 0 < 4)
  · exact (by decide : 0 < 4)

end ModuleGraph

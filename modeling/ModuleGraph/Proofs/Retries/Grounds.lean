import ModuleGraph.Proofs.Linking.Effects
import ModuleGraph.Proofs.Retries.Agreement

/-! # What a module is made of in two links

Two links that start from the same machine and differ in their resolvers go through machines of one
world, in which namespaces are kept that were there before or that the second resolver would give
too. In all of them the initialization of a module makes the same of it. -/

namespace ModuleGraph

open Syntax

variable {σ κ : Type}

/-! ## Keys that are kept -/

namespace Host

theorem Extends.findKeys {world : Machine σ κ → Prop} {first second : Host σ κ}
    (h : second.Extends world first) (ht : OneText world)
    (hf : Asks first (Machine.Stays world)) (hs : Asks second (Machine.Stays world))
    (m : ModuleId) : Redone world (first.findKeys m) (second.findKeys m) := by
  rw [Host.findKeys, Host.findKeys, h.depth]
  exact (h.names ht hf hs _ m []).bind (hf.names _ _ _) (hs.names _ _ _)
    fun _ => h.keepResolvable ht hf hs m _

end Host

/-! ## The machines of two links -/

/-- How a host conducts itself in the links of a world: its hooks keep within the world and leave
the namespaces alone, and to prepare a module does not change whether it awaits. -/
structure Host.LinksIn (host : Host σ κ) (journal : σ → Journal) (world : Machine σ κ → Prop) :
    Prop where
  conduct : LinkConduct journal host
  lookups : Asks host (Machine.SparesKeys world)
  linkLeaf : ∀ m, Within (Machine.SparesKeys world) (host.linkLeaf m)
  initializeForeign : ∀ m, Within (Machine.SparesKeys world) (host.initializeForeign m)
  instantiateForeign : ∀ m, Within (Machine.SparesKeys world) (host.instantiateForeign m)
  prepare : ∀ m, Within (Machine.SparesKeys world) (host.prepare m)
  awaits : ∀ {m s r s'}, host.prepare m s = some (r, s') →
    (s'.linkage m).hasAwait = (s.linkage m).hasAwait

structure Host.Replaces (second first : Host σ κ) (journal : σ → Journal)
    (world : Machine σ κ → Prop) : Prop where
  text : OneText world
  before : first.LinksIn journal world
  after : second.LinksIn journal world
  again : second.Extends world first
  steady : second.Extends world second

theorem Host.Replaces.self {journal : σ → Journal} {world : Machine σ κ → Prop}
    {second first : Host σ κ} (h : second.Replaces first journal world) :
    second.Replaces second journal world := ⟨h.text, h.after, h.after, h.steady, h.steady⟩

/-- A machine of the world, compared with the one that the links start from. A namespace is kept
if it was kept before, and is new only if the host can look up its keys. -/
structure Machine.Founded (world : Machine σ κ → Prop) (host : Host σ κ) (base s : Machine σ κ) :
    Prop where
  here : world s
  awaits : ∀ m record, s.record? m = some record →
    (s.linkage m).hasAwait = (base.linkage m).hasAwait
  kept : ∀ m, (base.module m).exports ≠ none → (s.module m).exports ≠ none
  found : ∀ m, (s.module m).exports ≠ none → (base.module m).exports ≠ none ∨
    ∃ w keys w', world w ∧ host.findKeys m w = some (.ok keys, w')

namespace Machine.Founded

variable {journal : σ → Journal} {world : Machine σ κ → Prop} {host : Host σ κ}
variable {base s s' : Machine σ κ} {free : ModuleId → Prop} {m x : ModuleId}

theorem refl (hw : world base) : base.Founded world host base :=
  ⟨hw, fun _ _ _ => rfl, fun _ => id, fun _ => .inl⟩

/-- A hook that spares the namespaces and does not change whether a free module awaits. -/
theorem spares (ht : OneText world) (h : base.Founded world host s)
    (hs : s.SparesKeys world s') (hk : s.Keeps journal free s')
    (hfree : ∀ x, free x → (s'.linkage x).hasAwait = (s.linkage x).hasAwait) :
    base.Founded world host s' := by
  have hw' := (hs.1 h.here).1
  have hawaits : ∀ x, (s'.linkage x).hasAwait = (s.linkage x).hasAwait := by
    intro x
    by_cases hf : free x
    · exact hfree x hf
    · by_cases hx : s.Has x
      · rw [linkage, hk.kind x hx hf, linkage]
      · rw [linkage, module_of_not_has fun hx' => hx ((ht.has h.here hw').1 hx'), linkage,
          module_of_not_has hx]
  refine ⟨hw', fun x record hr => ?_, fun x hx => ?_, fun x hx => ?_⟩
  · rw [ht.record h.here hw'] at hr
    exact (hawaits x).trans (h.awaits x record hr)
  · rw [hs.2 x]
    exact h.kept x hx
  · rw [hs.2 x] at hx
    exact h.found x hx

/-- An update of what a module is made of that leaves its text, and of a source text module also
whether it awaits. -/
theorem updateKind (ht : OneText world) (h : base.Founded world host s)
    {f : ModuleKind → ModuleKind} (htext : ∀ k : ModuleKind, k.SameText (f k))
    (hf : ∀ (k : ModuleKind) record, k.record? = some record →
      (f k).linkage.hasAwait = k.linkage.hasAwait) :
    base.Founded world host (s.updateKind m f) := by
  have hw' : world (s.updateKind m f) := ht.update m (fun x => htext x.kind) h.here
  have hexports : ∀ x, ((s.updateKind m f).module x).exports = (s.module x).exports := by
    intro x
    by_cases hm : s.Has m
    · rw [Machine.updateKind, module_updateModule s m x _ hm]
      split <;> rfl
    · rw [Machine.updateKind, updateModule_of_not_has _ hm]
  refine ⟨hw', fun x record hr => ?_, fun x hx => ?_, fun x hx => ?_⟩
  · rw [ht.record h.here hw'] at hr
    refine .trans ?_ (h.awaits x record hr)
    by_cases hm : s.Has m
    · rw [linkage, kind_updateKind f hm, linkage]
      split
      · exact hf _ record hr
      · rfl
    · rw [Machine.updateKind, updateModule_of_not_has _ hm]
  · rw [hexports]
    exact h.kept x hx
  · rw [hexports] at hx
    exact h.found x hx

/-- Keys that the host can look up are kept. -/
theorem keep (ht : OneText world) (h : base.Founded world host s) {keys : List String}
    (hfound : ∃ w keys w', world w ∧ host.findKeys m w = some (.ok keys, w')) :
    base.Founded world host (s.updateModule m fun x => { x with exports := some keys }) := by
  have hw' : world (s.updateModule m fun x => { x with exports := some keys }) :=
    ht.update m (fun x => ⟨rfl, rfl⟩) h.here
  by_cases hm : s.Has m
  · have hmodule := fun x =>
      module_updateModule s m x (fun x => { x with exports := some keys }) hm
    refine ⟨hw', fun x record hr => ?_, fun x hx => ?_, fun x hx => ?_⟩
    · rw [ht.record h.here hw'] at hr
      refine .trans ?_ (h.awaits x record hr)
      rw [linkage, hmodule, linkage]
      split <;> rfl
    · rw [hmodule]
      split
      · exact Option.some_ne_none _
      · exact h.kept x hx
    · rw [hmodule] at hx
      split at hx
      · rename_i e
        exact .inr (e ▸ hfound)
      · exact h.found x hx
  · rwa [updateModule_of_not_has _ hm]

end Machine.Founded

section Grounds

variable {journal : σ → Journal} {world : Machine σ κ → Prop} {first second : Host σ κ}
variable {base s s' : Machine σ κ} {m : ModuleId}

theorem Machine.Founded.within (ht : OneText world) {ε α : Type} {x : ExceptT ε (Run σ κ) α}
    (hx : Within (Machine.SparesKeys world) x)
    (hk : Within (Machine.Keeps journal fun _ => False) x) :
    Within (Machine.Stays (Machine.Founded world second base)) x := by
  intro s r s' hrun hg
  have hs := hx s r s' hrun
  exact ⟨hg.spares ht hs (hk s r s' hrun) fun _ hf => hf.elim, (hs.1 hg.here).2⟩

namespace Host.LinksIn

variable (h : first.LinksIn journal world)
include h

theorem stays : Asks first (Machine.Stays world) where
  toComposes := Machine.Stays.composes world
  resolve m request s r s' hrun := (h.lookups.resolve m request s r s' hrun).1
  exportedNames m s r s' hrun := (h.lookups.exportedNames m s r s' hrun).1
  resolveExport m name visited s r s' hrun := (h.lookups.resolveExport m name visited s r s' hrun).1

theorem asks (ht : OneText world) :
    Asks first (Machine.Stays (Machine.Founded world second base)) where
  toComposes := Machine.Stays.composes _
  resolve m request :=
    Machine.Founded.within ht (h.lookups.resolve m request) (h.conduct.resolve m request)
  exportedNames m :=
    Machine.Founded.within ht (h.lookups.exportedNames m) (h.conduct.exportedNames m)
  resolveExport m name visited :=
    Machine.Founded.within ht (h.lookups.resolveExport m name visited)
      (h.conduct.resolveExport m name visited)

end Host.LinksIn

namespace Host.Replaces

variable (h : second.Replaces first journal world)
include h

theorem asks : Asks first (Machine.Stays (Machine.Founded world second base)) :=
  h.before.asks h.text

theorem findKeys (m : ModuleId) : Redone world (first.findKeys m) (second.findKeys m) :=
  h.again.findKeys h.text h.before.stays h.after.stays m

theorem namespaceKeys (m : ModuleId) :
    Within (Machine.Stays (Machine.Founded world second base)) (first.namespaceKeys m) := by
  intro s r s' hrun hg
  cases hk : (s.module m).exports with
  | some keys =>
    rw [Host.namespaceKeys_of_kept hk] at hrun
    cases hrun
    exact ⟨hg, fun _ => id⟩
  | none =>
    obtain ⟨keys, s₁, hfound, -, rfl⟩ | ⟨e, hfound, -⟩ := Host.namespaceKeys_found hk hrun
    · obtain ⟨hg₁, hgrow⟩ := h.asks.findKeys m _ _ _ hfound hg
      obtain ⟨s₂, hfound'⟩ := h.findKeys m s s keys s₁ hg.here hg.here hfound
      refine ⟨hg₁.keep h.text ⟨s, keys, s₂, hg.here, hfound'⟩, fun x hx => ?_⟩
      exact (Machine.has_updateModule _).2 (hgrow x hx)
    · exact h.asks.findKeys m _ _ _ hfound hg

/-- A namespace that the first host has given, the second one gives too. -/
theorem namespaceOf (m : ModuleId) :
    Redone (Machine.Founded world second base) (first.namespaceOf m) (second.namespaceOf m) := by
  intro s s' v s₁ hg hg' hrun
  obtain ⟨keys, s₂, hkeys, hv⟩ | ⟨e, -, he⟩ := throwing_bind.1 hrun
  swap
  · cases he
  cases hv
  refine Host.namespaceOf_ok ?_
  by_cases hk' : (s'.module m).exports = none
  · refine .inr ?_
    have hbase : (base.module m).exports = none := by_contra fun hb => hg'.kept m hb hk'
    by_cases hk : (s.module m).exports = none
    · obtain ⟨keys', s₃, hfound, -, -⟩ | ⟨e, -, he⟩ := Host.namespaceKeys_found hk hkeys
      · exact ⟨keys', h.findKeys m _ _ _ _ hg.here hg'.here hfound⟩
      · cases he
    · obtain ⟨w, keys', w', hw, hfound⟩ := (hg.found m hk).resolve_left fun hb => hb hbase
      exact ⟨keys', h.self.findKeys m _ _ _ _ hw hg'.here hfound⟩
  · exact .inl hk'

end Host.Replaces

end Grounds

end ModuleGraph

import ModuleGraph.Proofs.Operations.Imports

/-! # What linking does to the machine

Terms that hold also across the updates that linking makes hold across a link. -/

namespace ModuleGraph

variable {σ κ α : Type}

/-- The fields that lead from a module to other modules and to its promise. -/
def Cyclic.leads (c : Cyclic) :
    List String × Option Capability × Option ModuleId × List ModuleId :=
  (c.requested, c.capability, c.root, c.parents)

structure ModuleKind.SameLeads (k k' : ModuleKind) : Prop where
  record : k'.record? = k.record?
  leads : k'.cyclic?.map Cyclic.leads = k.cyclic?.map Cyclic.leads
  leaf : ∀ p, k' = .leaf (.evaluated p) → k = .leaf (.evaluated p)

theorem ModuleKind.SameLeads.sameText {k k' : ModuleKind} (h : k.SameLeads k') : k.SameText k' := by
  have hrequested := congrArg (Option.map fun x => x.1) h.leads
  simp only [Option.map_map] at hrequested
  exact ⟨h.record, hrequested⟩

theorem ModuleKind.sameLeads_updateCyclic {f : Cyclic → Cyclic} (hf : ∀ c, (f c).leads = c.leads)
    (k : ModuleKind) : k.SameLeads (k.updateCyclic f) := by
  refine ⟨record?_updateCyclic f k, ?_, fun p h => ?_⟩
  · rw [cyclic?_updateCyclic, Option.map_map]
    exact congrArg (fun g => k.cyclic?.map g) (funext hf)
  · cases k <;> cases h
    rfl

/-- A relation that holds across the calls of the host that a link makes and across the updates of
single modules that links are made of. -/
structure SpansLink (host : Host σ κ) (R : Machine σ κ → Machine σ κ → Prop) : Prop
    extends Asks host R where
  keys : ∀ m, Within R (host.namespaceKeys m)
  leaf : ∀ m, Within R (host.linkLeaf m)
  foreign : ∀ m, Within R (host.initializeForeign m)
  instantiate : ∀ m, Within R (host.instantiateForeign m)
  prepare : ∀ m, Within R (host.prepare m)
  relink : ∀ s m {f : ModuleKind → ModuleKind}, (∀ k : ModuleKind, k.SameLeads (f k)) →
    R s (s.updateKind m f)

namespace SpansLink

variable {host : Host σ κ} {R : Machine σ κ → Machine σ κ → Prop}

theorem kind (h : SpansLink host R) (s : Machine σ κ) (m : ModuleId) {f : Cyclic → Cyclic}
    (hf : ∀ c, (f c).leads = c.leads) : R s (s.updateCyclic m f) :=
  h.relink s m (ModuleKind.sameLeads_updateCyclic hf)

theorem linkLeaf (h : SpansLink host R) (path : List String) (m : ModuleId) :
    Within R (ModuleGraph.linkLeaf host path m) := by
  refine Within.bind h.toComposes (fun s r s' e => ?_) fun kind => ?_
  · cases e
    exact h.refl s
  · split
    · refine Within.bind h.toComposes (Within.ofAct (h.leaf m)) fun _ s r s' e => ?_
      cases e
      refine h.relink s m fun k => ?_
      cases k <;> exact ⟨rfl, rfl, nofun⟩
    · exact Within.pure h.toComposes _

theorem initializes (h : SpansLink host R) (m : ModuleId) : Initializes host m R where
  toAsks := h.toAsks
  keys := h.keys
  prepare := h.prepare m
  foreign := h.foreign m
  instantiate := h.instantiate m
  environment s env := by
    refine h.relink s m fun k => ?_
    cases k <;> exact ⟨rfl, rfl, fun _ e => by cases e <;> rfl⟩
  instantiated s hasAwait := by
    refine h.relink s m fun k => ?_
    cases k <;> exact ⟨rfl, rfl, fun _ e => by cases e <;> rfl⟩

theorem initializeModule (h : SpansLink host R) (path : List String) (m : ModuleId) :
    Within R (ModuleGraph.initializeModule host path m) := (h.initializes m).initializeModule path

theorem openLinking (h : SpansLink host R) (m : ModuleId) :
    Across R (ModuleGraph.openLinking m : LinkVisit σ κ Unit) :=
  Across.restack h.toComposes fun _ s => h.kind s m fun _ => rfl

theorem reachOpen (h : SpansLink host R) (m required : ModuleId) (s : Machine σ κ) :
    R s (ModuleGraph.reachOpen m required s) := by
  rw [ModuleGraph.reachOpen]
  split
  · split
    · exact h.kind s m fun _ => rfl
    · exact h.refl s
  · exact h.refl s

theorem closeLinking (h : SpansLink host R) (m : ModuleId) :
    Across R (ModuleGraph.closeLinking m : LinkVisit σ κ Unit) := by
  refine Across.bind h.toComposes (Across.view h.toComposes _) fun isRoot => ?_
  split
  · refine Across.restack h.toComposes fun t s => h.foldl (fun s x => ?_) (t.close m).1 s
    exact h.kind s x fun _ => rfl
  · exact Across.pure h.toComposes _

theorem visitLinking (h : SpansLink host R) (depth : Nat) :
    ∀ path m, Across R (ModuleGraph.visitLinking host depth path m) := by
  induction depth with
  | zero =>
    intro path m t s r s' hrun
    cases hrun
  | succ depth ih =>
    intro path m
    rw [ModuleGraph.visitLinking]
    refine Across.bind h.toComposes (Across.view h.toComposes _) fun c => ?_
    split
    · exact Across.ofLinking (h.linkLeaf path m)
    · split
      · refine Across.bind h.toComposes (h.openLinking m) fun _ => ?_
        refine Across.bind h.toComposes (Across.forM h.toComposes (fun request => ?_) _) fun _ => ?_
        · refine Across.bind h.toComposes
            (Across.ofLinking (h.resolveRequest path m request)) fun required => ?_
          refine Across.bind h.toComposes (ih _ required) fun _ => ?_
          exact Across.update (h.reachOpen m required)
        · refine Across.bind h.toComposes (Across.ofLinking (h.initializeModule path m)) fun _ => ?_
          exact h.closeLinking m
      · exact Across.pure h.toComposes _

theorem unlink (h : SpansLink host R) (s : Machine σ κ) (m : ModuleId) : R s (s.unlink m) := by
  refine h.trans ?_ (h.relink _ m fun k => ?_)
  · exact h.kind s m fun _ => rfl
  · cases k <;> exact ⟨rfl, rfl, fun _ e => by cases e <;> rfl⟩

theorem link (h : SpansLink host R) (m : ModuleId) : Along R (host.link m) := by
  intro s a s' hrun
  obtain ⟨⟨r, t⟩, s₁, hvisit, hrun⟩ := Run.bind_eq_some.1 hrun
  have hR := h.visitLinking host.depth [] m _ _ _ _ hvisit
  cases r with
  | ok u =>
    cases hrun
    exact hR
  | error e =>
    cases hrun
    exact h.trans hR (h.foldl h.unlink t.stack s₁)

end SpansLink

namespace Carries

variable {host : Host σ κ} {w : Terms σ κ}

/-! ## Reads -/

theorem getBinding (h : Carries host w)
    (hvalue : ∀ m name, Within w.change (host.bindingValue m name)) (m : ModuleId)
    (name : String) : Within w.change (host.getBinding m name) := by
  rw [Host.getBinding]
  generalize host.depth = depth
  induction depth generalizing m name with
  | zero => exact Within.exhausted
  | succ depth ih =>
    rw [readBinding]
    refine Within.bind h.toComposes (Within.view h.toComposes _) fun kind => ?_
    split
    · exact h.fail _ _
    · split
      · exact ih _ _
      · exact Within.pure h.toComposes _
      · exact h.fail _ _
      · exact h.fail _ _
    · exact h.fail _ _
    · exact hvalue m name
    · exact hvalue m name

theorem namespaceGet (h : Carries host w)
    (hvalue : ∀ m name, Within w.change (host.bindingValue m name)) (m : ModuleId)
    (key : String) : Within w.change (host.namespaceGet m key) := by
  refine Within.bind h.toComposes (Within.view h.toComposes _) fun keys => ?_
  split
  · refine Within.bind h.toComposes (h.asks.boundTo m key) fun found => ?_
    split
    · exact h.fail _ _
    · exact h.namespaceOf _
    · exact h.getBinding hvalue _ _
  · exact Within.pure h.toComposes _

end Carries

structure CarriesLink (host : Host σ κ) (w : Terms σ κ) : Prop extends Carries host w where
  relink : ∀ s m {f : ModuleKind → ModuleKind}, (∀ k : ModuleKind, k.SameLeads (f k)) →
    w.change s (s.updateKind m f)

namespace CarriesLink

variable {host : Host σ κ} {w : Terms σ κ}

theorem spansLink (h : CarriesLink host w) : SpansLink host w.change where
  toAsks := h.asks
  keys := h.keys
  leaf := h.chores.linkLeaf
  foreign := h.chores.initializeForeign
  instantiate := h.chores.instantiateForeign
  prepare := h.chores.prepare
  relink := h.relink

theorem link (h : CarriesLink host w) (m : ModuleId) : Along w.change (host.link m) :=
  h.spansLink.link m

end CarriesLink

/-! ## Relations without terms -/

theorem Carries.of_aside {host : Host σ κ} {R : Machine σ κ → Machine σ κ → Prop}
    (hR : Composes R) (hhooks : Hooks host R) (hkeys : ∀ m, Within R (host.namespaceKeys m))
    (haside : ∀ {s s'}, s.Aside host.track s' → R s s')
    (hcyclic : ∀ s {m f}, (∀ c, (Terms.plain R).Allows s c (f c)) → R s (s.updateCyclic m f))
    (hleaf : ∀ s m {p} {f : ModuleKind → ModuleKind},
      (∀ state, f (.leaf state) = .leaf (.evaluated p)) →
      (∀ k : ModuleKind, k.cyclic?.isSome → f k = k) → R s (s.updateKind m f))
    (hupdate : ∀ s m {f : Module → Module},
      (∀ x, (f x).kind = x.kind ∧ (f x).exports = x.exports) → R s (s.updateModule m f)) :
    Carries host (.plain R) where
  toComposes := hR
  chores := hhooks.chores
  assume h := h trivial
  stays _ _ := ⟨trivial, fun _ h => h⟩
  fresh _ _ := trivial
  answer _ _ := trivial
  leafAnswer _ _ := trivial
  root _ _ := trivial
  parent _ _ := trivial
  linked _ _ := trivial
  asked _ _ _ _ := trivial
  answered _ _ _ := trivial
  keys := hkeys
  incidental h := haside (.of_eq h.modules h.host)
  newPromise _ _ _ := haside (.of_eq rfl rfl)
  settle s c result _ := haside (s.aside_settle c result)
  attach s p _ _ _ _ := haside (s.aside_attach p _)
  markHandled s p := haside (s.aside_markHandled p)
  openImport _ _ _ := haside (.of_eq rfl rfl)
  cyclic s _ _ _ hf := hcyclic s hf
  leaf s m _ _ _ _ hf hf' := hleaf s m hf hf'
  update s m _ hf := hupdate s m hf

end ModuleGraph

import ModuleGraph.Proofs.Live.Linking

/-! # What lasts once a module is linked

A linked module stays linked, whatever is done to it afterwards, and in its environment bindings are
only initialized and assigned. This is said of two machines, and holds across the small changes that
evaluations, imports and jobs are made of. -/

namespace ModuleGraph

open Relation

variable {σ κ : Type} {host : Host σ κ} {s s' s₁ start : Machine σ κ} {m n : ModuleId}

/-! ## Modules -/

/-- What becomes of a linked module. -/
structure ModuleKind.Endures (k k' : ModuleKind) : Prop where
  linked : k'.status.IsLinked
  bound : ∀ env, k.environment? = some env →
    ∃ env', k'.environment? = some env' ∧ ReflTransGen Environment.Writes env env'

namespace ModuleKind.Endures

variable {k k' k'' : ModuleKind}

theorem refl (h : k.status.IsLinked) : k.Endures k := ⟨h, fun env henv => ⟨env, henv, .refl⟩⟩

theorem trans (h : k.Endures k') (h' : k'.Endures k'') : k.Endures k'' where
  linked := h'.linked
  bound env henv := by
    obtain ⟨env', henv', hw⟩ := h.bound env henv
    obtain ⟨env'', henv'', hw'⟩ := h'.bound env' henv'
    exact ⟨env'', henv'', hw.trans hw'⟩

/-- The stage of a module changes, and it is still linked. -/
theorem updateCyclic {f : Cyclic → Cyclic} (h : k.status.IsLinked)
    (hf : ∀ c, (f c).status = c.status ∨ (f c).status.IsLinked) :
    k.Endures (k.updateCyclic f) where
  linked := isLinked_updateCyclic h hf
  bound env henv := ⟨env, (environment?_updateCyclic f k).trans henv, .refl⟩

theorem write {env env' : Environment} (h : k.status.IsLinked) (henv : k.environment? = some env)
    (hw : env.Writes env') : k.Endures (k.setEnvironment env') := by
  cases k with
  | source r e c =>
    cases henv
    exact ⟨h, fun env he => by cases he; exact ⟨env', rfl, .single hw⟩⟩
  | foreign i c => cases henv
  | leaf state => cases henv

theorem leaf {state state' : LeafState} (h : (ModuleKind.leaf state').status.IsLinked) :
    (ModuleKind.leaf state).Endures (.leaf state') := ⟨h, nofun⟩

end ModuleKind.Endures

namespace Machine

/-- All modules that are linked stay so. -/
def Secures (s s' : Machine σ κ) : Prop :=
  ∀ m, (s.status m).IsLinked → (s.module m).kind.Endures (s'.module m).kind

namespace Secures

theorem composes : Composes (Machine.Secures (σ := σ) (κ := κ)) where
  refl _ _ hm := .refl hm
  trans h h' m hm := (h m hm).trans (h' m (h m hm).linked)

theorem isLinked (h : s.Secures s') (hm : (s.status m).IsLinked) : (s'.status m).IsLinked :=
  (h m hm).linked

theorem of_kind (h : ∀ m, s.Has m → (s'.module m).kind = (s.module m).kind) : s.Secures s' :=
  fun m hm => by
    rw [h m (has_of_isLinked hm)]
    exact .refl hm

theorem of_modules (h : s'.modules = s.modules) : s.Secures s' :=
  .of_kind fun m _ => by rw [module, h, module]

theorem newModule (s : Machine σ κ) (x : Module) : s.Secures (s.newModule x).2 := by
  refine .of_kind fun m hm => ?_
  have hm : m.index < s.modules.size := hm
  rw [module, Machine.newModule, module]
  simp [Array.getD_eq_getD_getElem?, Array.getElem?_push_lt, hm]

theorem updateModule {f : Module → Module}
    (hf : (s.status m).IsLinked → (s.module m).kind.Endures (f (s.module m)).kind) :
    s.Secures (s.updateModule m f) := by
  intro n hn
  by_cases e : n = m
  · subst e
    rw [module_updateModule_self _ _ (has_of_isLinked hn)]
    exact hf hn
  · rw [module_updateModule_of_ne _ _ (Ne.symm e)]
    exact .refl hn

theorem updateCyclic {f : Cyclic → Cyclic}
    (hf : ∀ c, (f c).status = c.status ∨ (f c).status.IsLinked) : s.Secures (s.updateCyclic m f) :=
  .updateModule fun hm => .updateCyclic hm hf

theorem setStatus_linked (s : Machine σ κ) (m : ModuleId) : s.Secures (s.setStatus m .linked) :=
  .updateCyclic fun _ => .inr trivial

/-- Whatever happens to a module that was not linked at first. -/
theorem updateKind_other (h : start.Secures s) (hm : ¬(start.status m).IsLinked)
    (f : ModuleKind → ModuleKind) : start.Secures (s.updateKind m f) := by
  intro n hn
  have hne : m ≠ n := fun e => hm (e ▸ hn)
  rw [updateKind, module_updateModule_of_ne _ _ hne]
  exact h n hn

/-- One binding of an environment is initialized or assigned. -/
theorem write {env env' : Environment} (henv : s.environment? m = some env)
    (hw : env.Writes env') : s.Secures (s.setEnvironment m env') :=
  .updateModule fun hm => .write hm henv hw

theorem initializeBinding {name : String} {v : Value} {r : Except Value Unit}
    (hrun : initializeBinding m name v s = some (r, s')) : s.Secures s' := by
  obtain ⟨env, env', henv, hw, rfl⟩ | h := initializeBinding_cases hrun
  · exact .write henv hw
  · exact .of_modules h.modules

theorem assignBinding {name : String} {v : Value} {r : Except Value Unit}
    (hrun : assignBinding m name v s = some (r, s')) : s.Secures s' := by
  obtain ⟨env, env', henv, hw, rfl⟩ | h := assignBinding_cases hrun
  · exact .write henv hw
  · exact .of_modules h.modules

end Secures

end Machine

/-! ## Evaluations, imports and jobs -/

section Hooks

variable (h : Hooks host (Machine.Secures (σ := σ) (κ := κ)))
include h

theorem looksUp_secures : LooksUp host (Machine.Secures (σ := σ) (κ := κ)) where
  toComposes := Machine.Secures.composes
  resolve m request := h.resolve (.module m) request
  exportedNames := h.exportedNames
  resolveExport := h.resolveExport
  keep _ _ _ := .updateModule fun hm => .refl hm

theorem carries_secures : Carries host (.plain (Machine.Secures (σ := σ) (κ := κ))) := by
  refine .of_aside Machine.Secures.composes h (looksUp_secures h).namespaceKeys
    (fun ha => .of_modules ha.1) (fun s m f hf => .updateCyclic fun c => (hf c).status)
    (fun s m p f hleaf hkind => .updateModule fun hm => ?_)
    fun s m f hf => .updateModule fun hm => by rw [(hf _).1]; exact .refl hm
  change (s.module m).kind.Endures (f (s.module m).kind)
  cases hk : (s.module m).kind with
  | leaf state =>
    rw [hleaf]
    exact .leaf trivial
  | source r env c | foreign i c =>
    rw [hkind _ rfl, ← hk]
    exact .refl hm

end Hooks

end ModuleGraph

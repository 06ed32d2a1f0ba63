import Mathlib.Logic.Function.Basic
import ModuleGraph.Evaluation.Basic
import ModuleGraph.Machine.Lemmas

/-! # The fields of a module after an update

An update of one module is seen through each of the views of the machine: what the module is made
of, the fields that take part in cycles, and the status. A module that was never made looks like
one that is new. -/

namespace ModuleGraph

variable {σ κ : Type}

namespace Machine

variable {s : Machine σ κ} {m n : ModuleId}

def Has (s : Machine σ κ) (m : ModuleId) : Prop := m.index < s.modules.size

theorem module_of_not_has (h : ¬s.Has m) : s.module m = default := by
  simp only [Has, Nat.not_lt] at h
  simp [module, Array.getD_eq_getD_getElem?, Array.getElem?_eq_none h]

theorem module_updateModule (s : Machine σ κ) (m n : ModuleId) (f : Module → Module) (h : s.Has m) :
    (s.updateModule m f).module n = if n = m then f (s.module n) else s.module n := by
  by_cases e : n = m
  · subst e
    rw [if_pos rfl, module_updateModule_self _ _ h]
  · rw [if_neg e, module_updateModule_of_ne _ _ (Ne.symm e)]

theorem updateModule_of_not_has (f : Module → Module) (h : ¬s.Has m) : s.updateModule m f = s := by
  simp only [Has, Nat.not_lt] at h
  simp only [updateModule]
  congr 1
  exact Array.ext (by simp) fun i hi _ => by
    simp only [Array.size_modify] at hi
    rw [Array.getElem_modify, if_neg (by omega)]

theorem updateModule_of_eq {f : Module → Module} (h : f (s.module m) = s.module m) :
    s.updateModule m f = s := by
  simp only [updateModule]
  congr 1
  refine Array.ext (by simp) fun i hi _ => ?_
  rw [Array.getElem_modify]
  split
  · rename_i e
    subst e
    simpa only [module, Array.getD_eq_getD_getElem?, Array.getElem?_eq_getElem (show m.index <
      s.modules.size from by simpa using hi), Option.getD_some] using h
  · rfl

@[simp] theorem has_updateModule (f : Module → Module) :
    (s.updateModule m f).Has n ↔ s.Has n := by
  simp [Has]

@[simp] theorem has_updateCyclic (f : Cyclic → Cyclic) :
    (s.updateCyclic m f).Has n ↔ s.Has n := has_updateModule _

@[simp] theorem has_updateKind (f : ModuleKind → ModuleKind) :
    (s.updateKind m f).Has n ↔ s.Has n := has_updateModule _

theorem kind_updateKind (f : ModuleKind → ModuleKind) (h : s.Has m) :
    ((s.updateKind m f).module n).kind =
      if n = m then f (s.module n).kind else (s.module n).kind := by
  rw [updateKind, module_updateModule _ _ _ _ h]
  split <;> rfl

theorem kind_updateCyclic (f : Cyclic → Cyclic) (h : s.Has m) :
    ((s.updateCyclic m f).module n).kind =
      if n = m then (s.module n).kind.updateCyclic f else (s.module n).kind :=
  kind_updateKind _ h

theorem cyclic?_eq (s : Machine σ κ) (m : ModuleId) :
    s.cyclic? m = (s.module m).kind.cyclic? := rfl

theorem cyclic_of_module {s' : Machine σ κ} (h : s'.module m = s.module m) :
    s'.cyclic m = s.cyclic m := by
  rw [cyclic, cyclic?, h]
  rfl

theorem updateKind_of_eq {f : ModuleKind → ModuleKind}
    (h : f (s.module m).kind = (s.module m).kind) : s.updateKind m f = s :=
  updateModule_of_eq (by rw [h])

theorem isCyclic_eq_false_iff : s.isCyclic m = false ↔ s.cyclic? m = none := by
  rw [isCyclic, Option.isSome_eq_false_iff, Option.isNone_iff_eq_none]

theorem cyclic_of_not_isCyclic (h : s.isCyclic m = false) : s.cyclic m = default := by
  rw [cyclic, isCyclic_eq_false_iff.1 h]
  rfl

theorem updateCyclic_of_leaf (f : Cyclic → Cyclic) (h : s.cyclic? m = none) :
    s.updateCyclic m f = s := by
  refine updateKind_of_eq ?_
  rw [cyclic?_eq] at h
  cases hk : (s.module m).kind with
  | leaf state => rfl
  | source r env c => rw [hk] at h; cases h
  | foreign i c => rw [hk] at h; cases h

/-- The cyclic fields after an update. Those of a leaf and of a module that was never made stay
blank. -/
theorem cyclic?_updateCyclic (f : Cyclic → Cyclic) (h : s.Has m) :
    (s.updateCyclic m f).cyclic? n = if n = m then (s.cyclic? n).map f else s.cyclic? n := by
  simp only [cyclic?_eq, kind_updateCyclic f h]
  split
  · exact ModuleKind.cyclic?_updateCyclic f _
  · rfl

theorem cyclic_of_cyclic? {c : Cyclic} (h : s.cyclic? m = some c) : s.cyclic m = c := by
  simp [cyclic, h]

theorem cyclic_updateCyclic_self {c : Cyclic} (f : Cyclic → Cyclic) (h : s.Has m)
    (hc : s.cyclic? m = some c) : (s.updateCyclic m f).cyclic m = f c := by
  simp [cyclic, cyclic?_updateCyclic f h, hc]

theorem cyclic_updateCyclic_of_ne (f : Cyclic → Cyclic) (h : n ≠ m) :
    (s.updateCyclic m f).cyclic n = s.cyclic n := by
  simp only [cyclic, cyclic?, updateCyclic, updateKind]
  rw [module_updateModule_of_ne _ _ (Ne.symm h)]

theorem status_of_cyclic? {c : Cyclic} (h : s.cyclic? m = some c) : s.status m = c.status := by
  rw [cyclic?_eq] at h
  rw [status]
  cases hk : (s.module m).kind <;> rw [hk] at h <;> cases h <;> rfl

theorem status_of_isCyclic (h : s.isCyclic m) : s.status m = (s.cyclic m).status := by
  obtain ⟨c, hc⟩ := Option.isSome_iff_exists.1 h
  rw [status_of_cyclic? hc, cyclic_of_cyclic? hc]

theorem evaluationError?_of_isCyclic (h : s.isCyclic m) :
    s.evaluationError? m = (s.cyclic m).error := by
  obtain ⟨c, hc⟩ := Option.isSome_iff_exists.1 h
  rw [cyclic_of_cyclic? hc, evaluationError?]
  rw [cyclic?] at hc
  cases hk : (s.module m).kind with
  | source => rw [hk] at hc; cases hc; rfl
  | foreign => rw [hk] at hc; cases hc; rfl
  | leaf => rw [hk] at hc; cases hc

/-- Only modules that take part in cycles are ever being evaluated, or wait. -/
theorem isCyclic_of_status (h : s.status m = .evaluating ∨ s.status m = .evaluatingAsync) :
    s.isCyclic m := by
  rw [status] at h
  rw [isCyclic, cyclic?]
  cases hk : (s.module m).kind with
  | source | foreign => rfl
  | leaf state =>
    rw [hk] at h
    cases state <;> obtain h | h := h <;> cases h

theorem requested_of_cyclic? {c : Cyclic} (h : s.cyclic? m = some c) :
    s.requested m = c.requested := by
  simp [requested, h]

theorem has_of_requested {r : String} (h : r ∈ s.requested m) : s.Has m := by
  by_contra hm
  rw [requested, cyclic?_eq, module_of_not_has hm] at h
  cases h

theorem requested_of_leaf (h : s.isCyclic m = false) : s.requested m = [] := by
  simp [requested, isCyclic_eq_false_iff.1 h]

theorem map_cyclic?_updateCyclic {β : Type} (g : Cyclic → β) {f : Cyclic → Cyclic}
    (hf : ∀ c, g (f c) = g c) :
    ((s.updateCyclic m f).cyclic? n).map g = (s.cyclic? n).map g := by
  by_cases h : s.Has m
  · rw [cyclic?_updateCyclic f h]
    split
    · rw [Option.map_map]
      exact congrArg (fun k => (s.cyclic? n).map k) (funext hf)
    · rfl
  · rw [updateCyclic, updateKind, updateModule_of_not_has _ h]

theorem field_updateCyclic {β : Type} (g : Cyclic → β) {f : Cyclic → Cyclic}
    (hf : ∀ c, g (f c) = g c) : g ((s.updateCyclic m f).cyclic n) = g (s.cyclic n) := by
  have h := congrArg (fun o : Option β => o.getD (g default))
    (map_cyclic?_updateCyclic (s := s) (m := m) (n := n) g hf)
  simp only [Option.getD_map] at h
  exact h

theorem requested_updateCyclic {f : Cyclic → Cyclic} (hf : ∀ c, (f c).requested = c.requested) :
    (s.updateCyclic m f).requested n = s.requested n := by
  rw [requested, map_cyclic?_updateCyclic _ hf, requested]

theorem status_updateCyclic {f : Cyclic → Cyclic} (hf : ∀ c, (f c).status = c.status) :
    (s.updateCyclic m f).status n = s.status n := by
  by_cases h : s.Has m
  · rw [status, kind_updateCyclic f h, status]
    split
    · cases (s.module n).kind <;> simp [ModuleKind.updateCyclic, ModuleKind.status, hf]
    · rfl
  · rw [updateCyclic, updateKind, updateModule_of_not_has _ h]

theorem kind_foldl_updateKind (f : ModuleKind → ModuleKind) {xs : List ModuleId} (hxs : xs.Nodup)
    (h : ∀ x ∈ xs, s.Has x) :
    ((xs.foldl (fun s x => s.updateKind x f) s).module n).kind =
      if n ∈ xs then f (s.module n).kind else (s.module n).kind := by
  induction xs generalizing s with
  | nil => simp
  | cons x rest ih =>
    obtain ⟨hx, hrest⟩ := List.nodup_cons.1 hxs
    rw [List.foldl_cons, ih hrest fun y hy => by simpa using h y (List.mem_cons_of_mem _ hy),
      kind_updateKind f (h x (List.mem_cons_self ..))]
    by_cases e : n = x
    · subst e
      simp [hx]
    · simp [e]

@[simp] theorem host_foldl_updateKind (f : ModuleKind → ModuleKind) (xs : List ModuleId) :
    (xs.foldl (fun s x => s.updateKind x f) s).host = s.host := by
  induction xs generalizing s with
  | nil => rfl
  | cons x rest ih => exact ih

@[simp] theorem has_foldl_updateKind (f : ModuleKind → ModuleKind) (xs : List ModuleId) :
    (xs.foldl (fun s x => s.updateKind x f) s).Has n ↔ s.Has n := by
  induction xs generalizing s with
  | nil => rfl
  | cons x rest ih => exact ih.trans (has_updateKind f)

theorem cyclic?_foldl_updateCyclic (f : Cyclic → Cyclic) {xs : List ModuleId} (hxs : xs.Nodup)
    (h : ∀ x ∈ xs, s.Has x) :
    (xs.foldl (fun s x => s.updateCyclic x f) s).cyclic? n =
      if n ∈ xs then (s.cyclic? n).map f else s.cyclic? n := by
  have hk : ((xs.foldl (fun s x => s.updateCyclic x f) s).module n).kind = if n ∈ xs then
      (s.module n).kind.updateCyclic f else (s.module n).kind :=
    kind_foldl_updateKind (ModuleKind.updateCyclic f) hxs h
  rw [cyclic?_eq, hk]
  split
  · exact ModuleKind.cyclic?_updateCyclic f _
  · rfl

theorem field_foldl_updateCyclic {β : Type} (g : Cyclic → β) {f : Cyclic → Cyclic}
    (hf : ∀ c, g (f c) = g c) (xs : List ModuleId) :
    g ((xs.foldl (fun s x => s.updateCyclic x f) s).cyclic n) = g (s.cyclic n) := by
  induction xs generalizing s with
  | nil => rfl
  | cons x rest ih => exact ih.trans (field_updateCyclic g hf)

theorem requested_foldl_updateCyclic {f : Cyclic → Cyclic}
    (hf : ∀ c, (f c).requested = c.requested) (xs : List ModuleId) :
    (xs.foldl (fun s x => s.updateCyclic x f) s).requested n = s.requested n := by
  induction xs generalizing s with
  | nil => rfl
  | cons x rest ih => exact ih.trans (requested_updateCyclic hf)

end Machine

/-! ## Kinds -/

namespace ModuleKind

def IsNew : ModuleKind → Prop
  | .source _ env c => env = none ∧ c = .new c.requested c.hasAwait
  | .foreign i c => i = false ∧ c = .new c.requested c.hasAwait
  | .leaf state => state = .unlinked

/-- A module that holds nothing that linking makes. -/
def IsUnlinked : ModuleKind → Prop
  | .source _ env c => env = none ∧ c.status = .unlinked ∧ c.visit = none ∧ c.ancestor = none
  | .foreign i c => i = false ∧ c.status = .unlinked ∧ c.visit = none ∧ c.ancestor = none
  | .leaf state => state = .unlinked

theorem IsNew.isUnlinked {k : ModuleKind} (h : k.IsNew) : k.IsUnlinked := by
  cases k with
  | source r env c =>
    obtain ⟨rfl, hc⟩ := h
    exact ⟨rfl, by rw [hc]; exact ⟨rfl, rfl, rfl⟩⟩
  | foreign i c =>
    obtain ⟨rfl, hc⟩ := h
    exact ⟨rfl, by rw [hc]; exact ⟨rfl, rfl, rfl⟩⟩
  | leaf state => exact h

theorem IsUnlinked.status_eq {k : ModuleKind} (h : k.IsUnlinked) : k.status = .unlinked := by
  cases k with
  | source r env c => exact h.2.1
  | foreign i c => exact h.2.1
  | leaf state =>
    cases h
    rfl

theorem IsNew.environment? {k : ModuleKind} (h : k.IsNew) : k.environment? = none := by
  cases k with
  | source r env c => exact h.1
  | foreign i c => rfl
  | leaf state => rfl

theorem IsNew.leads {k : ModuleKind} (h : k.IsNew) :
    (k.cyclic?.getD default).root = none ∧ (k.cyclic?.getD default).parents = [] := by
  cases k with
  | source r env c =>
    rw [h.2]
    exact ⟨rfl, rfl⟩
  | foreign i c =>
    rw [h.2]
    exact ⟨rfl, rfl⟩
  | leaf state => exact ⟨rfl, rfl⟩

theorem isNew_default : (default : Module).kind.IsNew := ⟨rfl, rfl⟩

/-- Two kinds that are made of the same text, whatever has become of them. -/
def SameText (k k' : ModuleKind) : Prop :=
  k'.record? = k.record? ∧ k'.cyclic?.map (·.requested) = k.cyclic?.map (·.requested)

theorem sameText_updateCyclic {f : Cyclic → Cyclic} (hf : ∀ c, (f c).requested = c.requested)
    (k : ModuleKind) : k.SameText (k.updateCyclic f) := by
  refine ⟨record?_updateCyclic f k, ?_⟩
  rw [cyclic?_updateCyclic, Option.map_map]
  exact congrArg (fun g => k.cyclic?.map g) (funext hf)

end ModuleKind

/-- Linked, or evaluated in part or wholly. -/
def Status.IsLinked : Status → Prop
  | .unlinked | .linking => False
  | .linked | .evaluating | .evaluatingAsync | .evaluated => True

theorem isLinked_of_refusal? {st : Status} (h : refusal? st = none) : st.IsLinked := by
  cases st <;> trivial

theorem ModuleKind.isLinked_updateCyclic {k : ModuleKind} {f : Cyclic → Cyclic}
    (h : k.status.IsLinked) (hf : ∀ c, (f c).status = c.status ∨ (f c).status.IsLinked) :
    (k.updateCyclic f).status.IsLinked := by
  have hstatus : ∀ c : Cyclic, c.status.IsLinked → (f c).status.IsLinked := fun c hc =>
    (hf c).elim (fun e => (congrArg Status.IsLinked e).mpr hc) id
  cases k with
  | source r env c => exact hstatus c h
  | foreign i c => exact hstatus c h
  | leaf state => exact h

namespace Machine

variable {s : Machine σ κ} {m : ModuleId}

theorem isNew_of_not_has (h : ¬s.Has m) : (s.module m).kind.IsNew := by
  rw [module_of_not_has h]
  exact ModuleKind.isNew_default

theorem has_of_status_ne (h : s.status m ≠ .unlinked) : s.Has m := by
  by_contra hm
  exact h (isNew_of_not_has hm).isUnlinked.status_eq

theorem has_of_isLinked (h : (s.status m).IsLinked) : s.Has m := by
  refine has_of_status_ne fun e => ?_
  rw [e] at h
  exact h

end Machine

end ModuleGraph

import ModuleGraph.Proofs.Linking.Effects

/-! # The parts of an initialization

The initialization of a source text module looks up what the module takes from elsewhere, binds its
imports and its declarations, and lets the host prepare it. A foreign module gets its instance. -/

namespace ModuleGraph

open Syntax

variable {σ κ : Type} {host : Host σ κ} {s s' : Machine σ κ} {m : ModuleId} {path : List String}
variable {record : SourceRecord}

def SourceRecord.complete (record : SourceRecord) (env : Environment) : Environment :=
  (env.declareVars record.varNames).declareLexical record.lexical

/-- How the initialization of a source text module ends: its lookups throw, or the host is asked to
prepare it when it has its environment. -/
theorem initializeSource_cases {r : Except LinkError Unit}
    (hrun : initializeSource host path m record s = some (r, s')) :
    (∃ e, record.indirectExports.forM (checkIndirect host path m) s = some (.error e, s') ∧
        r = .error e) ∨
    ∃ s₁, record.indirectExports.forM (checkIndirect host path m) s = some (.ok ⟨⟩, s₁) ∧
      ((∃ e, bindImports host path m record.imports .empty s₁ = some (.error e, s') ∧
          r = .error e) ∨
        ∃ env s₂ x, bindImports host path m record.imports .empty s₁ = some (.ok env, s₂) ∧
          host.prepare m (s₂.setEnvironment m (record.complete env)) = some (x, s') ∧
          r = x.mapError fun e => ⟨.host e, path⟩) := by
  obtain ⟨⟨⟩, s₁, h₁, h⟩ | ⟨e, h₁, rfl⟩ := throwing_bind.1 hrun
  · refine .inr ⟨s₁, h₁, ?_⟩
    obtain ⟨env, s₂, h₂, h⟩ | ⟨e, h₂, rfl⟩ := throwing_bind.1 h
    · obtain ⟨x, hp, hx⟩ := Linking.ofAct_eq_some.1 h
      exact .inr ⟨env, s₂, x, h₂, hp, hx⟩
    · exact .inl ⟨e, h₂, rfl⟩
  · exact .inl ⟨e, h₁, rfl⟩

/-- The parts of the initialization of a source text module that succeeds. -/
theorem initializeSource_ok :
    initializeSource host path m record s = some (.ok (), s') ↔
      ∃ s₁ env s₂, record.indirectExports.forM (checkIndirect host path m) s = some (.ok ⟨⟩, s₁) ∧
        bindImports host path m record.imports .empty s₁ = some (.ok env, s₂) ∧
        host.prepare m (s₂.setEnvironment m (record.complete env)) = some (.ok (), s') := by
  rw [initializeSource, throwing_bind]
  constructor
  · rintro (⟨⟨⟩, s₁, h₁, h⟩ | ⟨e, -, he⟩)
    · obtain ⟨env, s₂, h₂, h⟩ | ⟨e, -, he⟩ := throwing_bind.1 h
      · obtain ⟨x, hp, hx⟩ := Linking.ofAct_eq_some.1 h
        cases x with
        | error e => cases hx
        | ok u => exact ⟨s₁, env, s₂, h₁, h₂, hp⟩
      · cases he
    · cases he
  · rintro ⟨s₁, env, s₂, h₁, h₂, hp⟩
    refine .inl ⟨⟨⟩, s₁, h₁, throwing_bind.2 (.inl ⟨env, s₂, h₂, ?_⟩)⟩
    exact Linking.ofAct_eq_some.2 ⟨.ok (), hp, rfl⟩

def ModuleKind.instantiate (hasAwait : Bool) : ModuleKind → ModuleKind
  | .foreign _ c => .foreign true { c with hasAwait }
  | k => k

/-- The parts of the initialization of a foreign module that succeeds. -/
theorem initializeForeign_ok :
    initializeForeign host path m s = some (.ok (), s') ↔
      ∃ s₁ hasAwait s₂, host.initializeForeign m s = some (.ok (), s₁) ∧
        host.instantiateForeign m s₁ = some (.ok hasAwait, s₂) ∧
        s' = s₂.updateKind m (.instantiate hasAwait) := by
  rw [initializeForeign, throwing_bind]
  constructor
  · rintro (⟨hasAwait, s₂, h, hend⟩ | ⟨e, -, he⟩)
    · obtain ⟨x, h, hx⟩ := Linking.ofAct_eq_some.1 h
      cases x with
      | error e => cases hx
      | ok w =>
        cases hx
        obtain ⟨⟨⟩, s₁, h₁, h₂⟩ | ⟨e, -, he⟩ := throwing_bind.1 h
        · cases hend
          exact ⟨s₁, hasAwait, s₂, h₁, h₂, rfl⟩
        · cases he
    · cases he
  · rintro ⟨s₁, w, s₂, h₁, h₂, rfl⟩
    refine .inl ⟨w, s₂, Linking.ofAct_eq_some.2 ⟨.ok w, ?_, rfl⟩, rfl⟩
    exact throwing_bind.2 (.inl ⟨(), s₁, h₁, h₂⟩)

theorem initializeModule_of_record (h : s.record? m = some record) :
    initializeModule host path m s = initializeSource host path m record s := by
  rw [initializeModule, Linking.view_bind, h]

theorem initializeModule_of_foreign (h : s.record? m = none) :
    initializeModule host path m s = initializeForeign host path m s := by
  rw [initializeModule, Linking.view_bind, h]

namespace Machine

/-- A module that takes part in cycles and has no record is foreign. -/
theorem kind_of_foreign (hc : s.isCyclic m) (hr : s.record? m = none) :
    ∃ i c, (s.module m).kind = .foreign i c := by
  rw [isCyclic, cyclic?_eq] at hc
  rw [record?] at hr
  cases hk : (s.module m).kind with
  | source r env c => rw [hk] at hr; cases hr
  | foreign i c => exact ⟨i, c, rfl⟩
  | leaf state => rw [hk] at hc; cases hc

theorem linkage_instantiate {i : Bool} {c : Cyclic} {hasAwait : Bool} (hm : s.Has m)
    (hk : (s.module m).kind = .foreign i c) :
    (s.updateKind m (.instantiate hasAwait)).linkage m = ⟨none, true, hasAwait⟩ := by
  rw [linkage, kind_updateKind _ hm, if_pos rfl, hk]
  rfl

theorem environment?_setEnvironment {env : Environment} (hm : s.Has m)
    (hr : s.record? m = some record) : (s.setEnvironment m env).environment? m = some env := by
  rw [record?] at hr
  rw [environment?, setEnvironment, kind_updateKind _ hm, if_pos rfl]
  cases hk : (s.module m).kind with
  | source r env c => rfl
  | foreign i c => rw [hk] at hr; cases hr
  | leaf state => rw [hk] at hr; cases hr

end Machine

end ModuleGraph

import Mathlib.Logic.Relation
import ModuleGraph.Proofs.Computation

/-! # What looking up names does to the machine

Resolving exported names, making namespace objects and building the environment of a module call
the host many times, in an order that depends on its answers. A relation between machines that
holds from before to after each of these calls, and that can be composed, holds across the whole
lookup. -/

namespace ModuleGraph

open Syntax

variable {σ κ α β ε : Type}

structure Composes (R : Machine σ κ → Machine σ κ → Prop) : Prop where
  refl : ∀ s, R s s
  trans : ∀ {s₁ s₂ s₃}, R s₁ s₂ → R s₂ s₃ → R s₁ s₃

theorem Composes.reflTransGen (C : Machine σ κ → Machine σ κ → Prop) :
    Composes (Relation.ReflTransGen C) := ⟨fun _ => .refl, fun h h' => h.trans h'⟩

theorem Composes.foldl {R : Machine σ κ → Machine σ κ → Prop} (hR : Composes R)
    {g : Machine σ κ → α → Machine σ κ} (hg : ∀ s x, R s (g s x)) (xs : List α)
    (s : Machine σ κ) : R s (xs.foldl g s) := by
  induction xs generalizing s with
  | nil => exact hR.refl s
  | cons x rest ih => exact hR.trans (hg s x) (ih (g s x))

/-- All results of a computation that may throw are related to where it started. -/
def Within (R : Machine σ κ → Machine σ κ → Prop) (x : ExceptT ε (Run σ κ) α) : Prop :=
  ∀ s r s', x s = some (r, s') → R s s'

namespace Within

variable {R : Machine σ κ → Machine σ κ → Prop}

protected theorem pure (hR : Composes R) (a : α) :
    Within R (pure a : ExceptT ε (Run σ κ) α) := by
  intro s r s' h
  cases h
  exact hR.refl s

protected theorem throw (hR : Composes R) (e : ε) :
    Within R (throw e : ExceptT ε (Run σ κ) α) := by
  intro s r s' h
  cases h
  exact hR.refl s

protected theorem bind (hR : Composes R) {x : ExceptT ε (Run σ κ) α}
    {f : α → ExceptT ε (Run σ κ) β} (hx : Within R x) (hf : ∀ a, Within R (f a)) :
    Within R (x >>= f) := by
  intro s r s' h
  obtain ⟨a, s₁, h₁, h₂⟩ | ⟨e, h₁, rfl⟩ := throwing_bind.1 h
  · exact hR.trans (hx _ _ _ h₁) (hf a _ _ _ h₂)
  · exact hx _ _ _ h₁

protected theorem forM (hR : Composes R) {f : β → ExceptT ε (Run σ κ) PUnit}
    (hf : ∀ x, Within R (f x)) (xs : List β) : Within R (xs.forM f) := by
  induction xs with
  | nil => exact Within.pure hR _
  | cons x rest ih => exact Within.bind hR (hf x) fun _ => ih

protected theorem ofExcept (hR : Composes R) (x : Except Value α) :
    Within R (Act.ofExcept x : Act σ κ α) := by
  cases x with
  | ok a => exact Within.pure hR a
  | error e => exact Within.throw hR e

theorem exhausted : Within R (Act.ofRun Run.exhausted : Act σ κ α) := by
  intro s r s' h
  obtain ⟨a, -, h⟩ := Act.ofRun_eq_some.1 h
  cases h

theorem view (hR : Composes R) (f : Machine σ κ → α) : Within R (Act.view f) := by
  intro s r s' h
  cases h
  exact hR.refl s

theorem update {f : Machine σ κ → Machine σ κ} (hf : ∀ s, R s (f s)) :
    Within R (Act.update f) := by
  intro s r s' h
  cases h
  exact hf s

theorem ofAct {wrap : Value → LinkError} {a : Act σ κ α} (ha : Within R a) :
    Within R (Linking.ofAct wrap a) := by
  intro s r s' h
  obtain ⟨x, h, -⟩ := Linking.ofAct_eq_some.1 h
  exact ha _ _ _ h

end Within

/-! ## The keys of namespaces -/

def Host.findKeys (host : Host σ κ) (m : ModuleId) : Act σ κ (List String) := do
  let found ← ModuleGraph.exportedNames host host.depth m []
  ModuleGraph.keepResolvable host m (found.1.getD [])

namespace Host

variable {host : Host σ κ} {s s' : Machine σ κ} {m : ModuleId}

theorem namespaceKeys_of_kept {keys : List String} (h : (s.module m).exports = some keys) :
    host.namespaceKeys m s = some (.ok keys, s) := by
  rw [namespaceKeys, Act.view_bind, h]
  rfl

theorem namespaceKeys_of_new (h : (s.module m).exports = none) :
    host.namespaceKeys m s = (do
      let kept ← host.findKeys m
      Act.update fun s =>
        s.updateModule m fun x => { x with exports := some (Text.sortDistinct kept) }
      pure (Text.sortDistinct kept)) s := by
  rw [namespaceKeys, Act.view_bind, h, findKeys, bind_assoc]

/-- A namespace that is not kept has its keys looked up. -/
theorem namespaceKeys_found {r : Except Value (List String)}
    (h : (s.module m).exports = none) (hrun : host.namespaceKeys m s = some (r, s')) :
    (∃ keys s₁, host.findKeys m s = some (.ok keys, s₁) ∧ r = .ok (Text.sortDistinct keys) ∧
      s' = s₁.updateModule m fun x => { x with exports := some (Text.sortDistinct keys) }) ∨
      ∃ e, host.findKeys m s = some (.error e, s') ∧ r = .error e := by
  rw [namespaceKeys_of_new h] at hrun
  obtain ⟨keys, s₁, h₁, h₂⟩ | ⟨e, h₁, rfl⟩ := throwing_bind.1 hrun
  · cases h₂
    exact .inl ⟨keys, s₁, h₁, rfl, rfl⟩
  · exact .inr ⟨e, h₁, rfl⟩

/-- The namespace of a module is there if its keys are kept or can be found. -/
theorem namespaceOf_ok (h : (s.module m).exports ≠ none ∨
      ∃ keys s₁, host.findKeys m s = some (.ok keys, s₁)) :
    ∃ s', host.namespaceOf m s = some (.ok (.namespace m), s') := by
  have hkeys : ∃ keys s', host.namespaceKeys m s = some (.ok keys, s') := by
    cases hk : (s.module m).exports with
    | some keys => exact ⟨keys, s, namespaceKeys_of_kept hk⟩
    | none =>
      obtain ⟨keys, s₁, hfound⟩ := h.resolve_left fun hn => hn hk
      rw [namespaceKeys_of_new hk]
      exact ⟨_, _, throwing_bind.2 (.inl ⟨keys, s₁, hfound, rfl⟩)⟩
  obtain ⟨keys, s', hrun⟩ := hkeys
  exact ⟨s', throwing_bind.2 (.inl ⟨keys, s', hrun, rfl⟩)⟩

end Host

/-! ## Lookups -/

/-- A relation that holds across what a host does when exported names are looked up. -/
structure Asks (host : Host σ κ) (R : Machine σ κ → Machine σ κ → Prop) : Prop
    extends Composes R where
  resolve : ∀ m request, Within R (host.resolve (.module m) request)
  exportedNames : ∀ m, Within R (Act.ofRun (host.exportedNames m))
  resolveExport : ∀ m name visited, Within R (host.resolveExport m name visited)

namespace Asks

variable {host : Host σ κ} {R : Machine σ κ → Machine σ κ → Prop}

theorem joinStars (h : Asks host R)
    {visit : String → Visited → Act σ κ (Option Resolution × Visited)}
    (hvisit : ∀ request visited, Within R (visit request visited)) (requests : List String) :
    ∀ found visited, Within R (ModuleGraph.joinStars visit requests found visited) := by
  induction requests with
  | nil => exact fun _ _ => Within.pure h.toComposes _
  | cons request rest ih =>
    intro found visited
    rw [ModuleGraph.joinStars]
    refine Within.bind h.toComposes (hvisit request visited) ?_
    rintro ⟨_ | ⟨m, b⟩ | _, visited'⟩
    · exact ih _ _
    · cases found with
      | none => exact ih _ _
      | some other =>
        dsimp only
        split
        · exact ih _ _
        · exact Within.pure h.toComposes _
    · exact Within.pure h.toComposes _

theorem resolved (h : Asks host R) (depth : Nat) :
    ∀ m name visited, Within R (ModuleGraph.resolveExport host depth m name visited) := by
  induction depth with
  | zero => exact fun _ _ _ => Within.exhausted
  | succ depth ih =>
    intro m name visited
    rw [ModuleGraph.resolveExport]
    refine Within.bind h.toComposes (Within.view h.toComposes _) fun record => ?_
    split
    · exact h.resolveExport _ _ _
    · split
      · exact Within.pure h.toComposes _
      · split
        · exact Within.pure h.toComposes _
        · split
          · refine Within.bind h.toComposes (h.resolve _ _) fun target => ?_
            split
            · exact Within.pure h.toComposes _
            · exact ih _ _ _
          · split
            · exact Within.pure h.toComposes _
            · refine h.joinStars (fun request visited => ?_) _ _ _
              exact Within.bind h.toComposes (h.resolve _ _) fun target => ih _ _ _

theorem resolution (h : Asks host R) (m : ModuleId) (name : String) :
    Within R (host.resolution m name) :=
  Within.bind h.toComposes (h.resolved _ _ _ _) fun _ => Within.pure h.toComposes _

theorem boundTo (h : Asks host R) (m : ModuleId) (name : String) :
    Within R (host.boundTo m name) := by
  refine Within.bind h.toComposes (h.resolution m name) fun found => ?_
  split <;> exact Within.pure h.toComposes _

theorem collectStars (h : Asks host R)
    {visit : String → List ModuleId → Act σ κ (Option (List String) × List ModuleId)}
    (hvisit : ∀ request seen, Within R (visit request seen)) (requests : List String) :
    ∀ names seen, Within R (ModuleGraph.collectStars visit requests names seen) := by
  induction requests with
  | nil => exact fun _ _ => Within.pure h.toComposes _
  | cons request rest ih =>
    intro names seen
    rw [ModuleGraph.collectStars]
    exact Within.bind h.toComposes (hvisit request seen) fun _ => ih _ _

theorem names (h : Asks host R) (depth : Nat) :
    ∀ m seen, Within R (ModuleGraph.exportedNames host depth m seen) := by
  induction depth with
  | zero => exact fun _ _ => Within.exhausted
  | succ depth ih =>
    intro m seen
    rw [ModuleGraph.exportedNames]
    split
    · exact Within.pure h.toComposes _
    · refine Within.bind h.toComposes (Within.view h.toComposes _) fun record => ?_
      split
      · exact Within.bind h.toComposes (h.exportedNames m) fun _ => Within.pure h.toComposes _
      · refine Within.bind h.toComposes (h.collectStars (fun request seen => ?_) _ _ _)
          fun _ => Within.pure h.toComposes _
        exact Within.bind h.toComposes (h.resolve _ _) fun target => ih _ _

theorem keepResolvable (h : Asks host R) (m : ModuleId) (names : List String) :
    Within R (ModuleGraph.keepResolvable host m names) := by
  induction names with
  | nil => exact Within.pure h.toComposes _
  | cons name rest ih =>
    rw [ModuleGraph.keepResolvable]
    refine Within.bind h.toComposes (h.boundTo m name) fun found => ?_
    exact Within.bind h.toComposes ih fun kept => Within.pure h.toComposes _

theorem findKeys (h : Asks host R) (m : ModuleId) : Within R (host.findKeys m) :=
  Within.bind h.toComposes (h.names _ _ _) fun _ => h.keepResolvable m _

/-- A call for the keys of a namespace asks for names, and at the end it may keep the keys. -/
theorem namespaceKeys_cases (h : Asks host R) {m : ModuleId} {s s' : Machine σ κ}
    {r : Except Value (List String)} (hrun : host.namespaceKeys m s = some (r, s')) :
    ∃ s₁, R s s₁ ∧
      (s' = s₁ ∨ ∃ keys, s' = s₁.updateModule m fun x => { x with exports := some keys }) := by
  cases hkept : (s.module m).exports with
  | some keys =>
    rw [Host.namespaceKeys_of_kept hkept] at hrun
    cases hrun
    exact ⟨s, h.refl s, .inl rfl⟩
  | none =>
    obtain ⟨keys, s₁, hfound, -, rfl⟩ | ⟨e, hfound, -⟩ := Host.namespaceKeys_found hkept hrun
    · exact ⟨s₁, h.findKeys m _ _ _ hfound, .inr ⟨_, rfl⟩⟩
    · exact ⟨s', h.findKeys m _ _ _ hfound, .inl rfl⟩

/-! ## Environments -/

section Environments

variable (hkeys : ∀ m, Within R (host.namespaceKeys m))

include hkeys in
theorem namespaceOf (h : Asks host R) (m : ModuleId) : Within R (host.namespaceOf m) :=
  Within.bind h.toComposes (hkeys m) fun _ => Within.pure h.toComposes _

theorem resolveRequest (h : Asks host R) (path : List String) (m : ModuleId)
    (request : String) : Within R (ModuleGraph.resolveRequest host path m request) :=
  Within.ofAct (h.resolve m request)

theorem resolveImport (h : Asks host R) (path : List String) (m : ModuleId)
    (request name : String) : Within R (ModuleGraph.resolveImport host path m request name) := by
  refine Within.bind h.toComposes (Within.ofAct ?_) fun resolution => ?_
  · exact Within.bind h.toComposes (h.resolve m request) fun target => h.resolution target name
  · split
    · exact Within.pure h.toComposes _
    · exact Within.throw h.toComposes _
    · exact Within.throw h.toComposes _

theorem checkIndirect (h : Asks host R) (path : List String) (m : ModuleId)
    (e : IndirectExport) : Within R (ModuleGraph.checkIndirect host path m e) := by
  rw [ModuleGraph.checkIndirect]
  split
  · exact Within.bind h.toComposes (h.resolveImport _ _ _ _) fun _ => Within.pure h.toComposes _
  · exact Within.bind h.toComposes (h.resolveRequest _ _ _) fun _ => Within.pure h.toComposes _

include hkeys

theorem namespaceBinding (h : Asks host R) (path : List String) (request : String)
    (target : ModuleId) : Within R (ModuleGraph.namespaceBinding host path request target) :=
  Within.bind h.toComposes (Within.ofAct (h.namespaceOf hkeys target)) fun _ =>
    Within.pure h.toComposes _

theorem importBinding (h : Asks host R) (path : List String) (m : ModuleId)
    (i : ImportEntry) : Within R (ModuleGraph.importBinding host path m i) := by
  rw [ModuleGraph.importBinding]
  split
  · exact Within.bind h.toComposes (h.resolveRequest _ _ _) fun _ => h.namespaceBinding hkeys _ _ _
  · refine Within.bind h.toComposes (h.resolveImport _ _ _ _) ?_
    rintro ⟨target, b⟩
    dsimp only
    split
    · exact h.namespaceBinding hkeys _ _ _
    · exact Within.pure h.toComposes _

theorem bindImports (h : Asks host R) (path : List String) (m : ModuleId)
    (imports : List ImportEntry) :
    ∀ env, Within R (ModuleGraph.bindImports host path m imports env) := by
  induction imports with
  | nil => exact fun _ => Within.pure h.toComposes _
  | cons i rest ih =>
    intro env
    rw [ModuleGraph.bindImports]
    exact Within.bind h.toComposes (h.importBinding hkeys path m i) fun _ => ih _

end Environments

end Asks

/-! ## The initialization of a module -/

structure Initializes (host : Host σ κ) (m : ModuleId)
    (R : Machine σ κ → Machine σ κ → Prop) : Prop extends Asks host R where
  keys : ∀ n, Within R (host.namespaceKeys n)
  prepare : Within R (host.prepare m)
  foreign : Within R (host.initializeForeign m)
  instantiate : Within R (host.instantiateForeign m)
  environment : ∀ s env, R s (s.setEnvironment m env)
  instantiated : ∀ s hasAwait, R s (s.updateKind m fun
    | .foreign _ c => .foreign true { c with hasAwait }
    | k => k)

namespace Initializes

variable {host : Host σ κ} {m : ModuleId} {R : Machine σ κ → Machine σ κ → Prop}

theorem initializeSource (h : Initializes host m R) (path : List String) (record : SourceRecord) :
    Within R (ModuleGraph.initializeSource host path m record) := by
  have hcheck := Within.forM h.toComposes (h.checkIndirect path m) record.indirectExports
  refine Within.bind h.toComposes hcheck fun _ => ?_
  refine Within.bind h.toComposes (h.bindImports h.keys path m record.imports _) fun env => ?_
  refine Within.bind h.toComposes (fun s r s' e => ?_) fun _ => Within.ofAct h.prepare
  cases e
  exact h.environment s _

theorem initializeForeign (h : Initializes host m R) (path : List String) :
    Within R (ModuleGraph.initializeForeign host path m) := by
  have hmake : Within R (do
      host.initializeForeign m
      host.instantiateForeign m) :=
    Within.bind h.toComposes h.foreign fun _ => h.instantiate
  refine Within.bind h.toComposes (Within.ofAct hmake) fun hasAwait s r s' e => ?_
  cases e
  exact h.instantiated s hasAwait

theorem initializeModule (h : Initializes host m R) (path : List String) :
    Within R (ModuleGraph.initializeModule host path m) := by
  refine Within.bind h.toComposes (fun s r s' e => ?_) fun record => ?_
  · cases e
    exact h.refl s
  · split
    · exact h.initializeSource path _
    · exact h.initializeForeign path

end Initializes

structure LooksUp (host : Host σ κ) (R : Machine σ κ → Machine σ κ → Prop) : Prop
    extends Composes R where
  resolve : ∀ m request, Within R (host.resolve (.module m) request)
  exportedNames : ∀ m, Within R (Act.ofRun (host.exportedNames m))
  resolveExport : ∀ m name visited, Within R (host.resolveExport m name visited)
  keep : ∀ s m keys, R s (s.updateModule m fun x => { x with exports := some keys })

namespace LooksUp

variable {host : Host σ κ} {R : Machine σ κ → Machine σ κ → Prop}

theorem asks (h : LooksUp host R) : Asks host R where
  toComposes := h.toComposes
  resolve := h.resolve
  exportedNames := h.exportedNames
  resolveExport := h.resolveExport

theorem resolution (h : LooksUp host R) (m : ModuleId) (name : String) :
    Within R (host.resolution m name) := h.asks.resolution m name

theorem namespaceKeys (h : LooksUp host R) (m : ModuleId) : Within R (host.namespaceKeys m) := by
  intro s r s' hrun
  obtain ⟨s₁, hR, rfl | ⟨keys, rfl⟩⟩ := h.asks.namespaceKeys_cases hrun
  · exact hR
  · exact h.trans hR (h.keep s₁ m keys)

theorem namespaceOf (h : LooksUp host R) (m : ModuleId) : Within R (host.namespaceOf m) :=
  h.asks.namespaceOf h.namespaceKeys m

theorem bindImports (h : LooksUp host R) (path : List String) (m : ModuleId)
    (imports : List ImportEntry) (env : Environment) :
    Within R (ModuleGraph.bindImports host path m imports env) :=
  h.asks.bindImports h.namespaceKeys path m imports env

end LooksUp

end ModuleGraph

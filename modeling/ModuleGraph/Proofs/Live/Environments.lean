import ModuleGraph.Proofs.Exports.Checks
import ModuleGraph.Proofs.Linking.Initializing
import ModuleGraph.Proofs.Live.Scopes

/-! # What an environment holds

The initialization of a module gives each import the binding that its name stands for in the graph,
and each name that a local export means a binding of the module's own. Values come and go, but
which names are bound, and what an import leads to, stays as it is from then on. -/

namespace ModuleGraph

open Relation Syntax

/-! ## Declarations -/

namespace Environment

variable {α : Type} {env env' : Environment} {name n : String} {b : Binding}

theorem get?_declare_of_some (h : env.get? n = some b) (name : String) (b' : Binding) :
    (env.declare name b').get? n = some b := by
  rw [declare]
  split
  · exact h
  · rename_i hn
    rw [get?_put_of_ne, h]
    rintro rfl
    rw [has, h] at hn
    exact hn rfl

theorem get?_declare_of_ne (h : name ≠ n) (env : Environment) (b : Binding) :
    (env.declare name b).get? n = env.get? n := by
  rw [declare]
  split
  · rfl
  · exact get?_put_of_ne env b h

theorem get?_declare_self (h : env.get? n = none) (b : Binding) :
    (env.declare n b).get? n = some b := by
  rw [declare, has, h]
  exact get?_put_self env n b

def declareAll (f : α → String) (g : α → Binding) (xs : List α) (env : Environment) :
    Environment := xs.foldl (fun env x => env.declare (f x) (g x)) env

variable {f : α → String} {g : α → Binding} {xs : List α}

theorem get?_declareAll_of_some (h : env.get? n = some b) :
    (declareAll f g xs env).get? n = some b := by
  induction xs generalizing env with
  | nil => exact h
  | cons x rest ih => exact ih (get?_declare_of_some h (f x) (g x))

theorem get?_declareAll_of_not_mem (h : n ∉ xs.map f) :
    (declareAll f g xs env).get? n = env.get? n := by
  induction xs generalizing env with
  | nil => rfl
  | cons x rest ih =>
    rw [List.map_cons, List.mem_cons, not_or] at h
    exact (ih h.2).trans (get?_declare_of_ne (Ne.symm h.1) env (g x))

/-- The first declaration of a name that has no binding gives it one. -/
theorem get?_declareAll_of_mem (h : env.get? n = none) (hn : n ∈ xs.map f) :
    ∃ x ∈ xs, (declareAll f g xs env).get? n = some (g x) := by
  induction xs generalizing env with
  | nil => cases hn
  | cons x rest ih =>
    by_cases hx : f x = n
    · subst hx
      have hself : (env.declare (f x) (g x)).get? (f x) = some (g x) := get?_declare_self h (g x)
      have hkept : (declareAll f g rest (env.declare (f x) (g x))).get? (f x) = some (g x) :=
        get?_declareAll_of_some hself
      exact ⟨x, List.mem_cons_self, hkept⟩
    · rw [List.map_cons, List.mem_cons] at hn
      have hnone : (env.declare (f x) (g x)).get? n = none :=
        (get?_declare_of_ne hx env (g x)).trans h
      obtain ⟨y, hy, hb⟩ := ih hnone (hn.resolve_left (Ne.symm hx))
      exact ⟨y, List.mem_cons_of_mem _ hy, hb⟩

theorem declareVars_eq (env : Environment) (names : List String) :
    env.declareVars names = declareAll id (fun _ => .local (some .undefined) true) names env := rfl

theorem declareLexical_eq (env : Environment) (names : List (String × LexicalKind)) :
    env.declareLexical names =
      declareAll (·.1) (fun d => .local none (isMutable d.2)) names env := rfl

end Environment

namespace SourceRecord

variable {record : SourceRecord} {env : Environment} {n : String} {b : Binding}

theorem get?_complete (h : env.get? n = some b) : (record.complete env).get? n = some b := by
  rw [complete, Environment.declareLexical_eq, Environment.declareVars_eq]
  exact Environment.get?_declareAll_of_some (Environment.get?_declareAll_of_some h)

/-- A declared name that no import binds gets a binding of the module's own. -/
theorem get?_complete_of_declared (hn : n ∈ record.declared) (h : env.get? n = none) :
    ∃ v mutable, (record.complete env).get? n = some (.local v mutable) := by
  by_cases hv : n ∈ record.varNames
  · have hvar : ∃ x ∈ record.varNames,
        (env.declareVars record.varNames).get? n = some (.local (some .undefined) true) :=
      Environment.get?_declareAll_of_mem (f := id) h (by rwa [List.map_id])
    obtain ⟨x, -, hx⟩ := hvar
    exact ⟨_, _, Environment.get?_declareAll_of_some hx⟩
  · have hl := (List.mem_append.1 hn).resolve_left hv
    have hnone : (env.declareVars record.varNames).get? n = env.get? n :=
      Environment.get?_declareAll_of_not_mem (f := id) (by rwa [List.map_id])
    obtain ⟨d, -, hd⟩ := Environment.get?_declareAll_of_mem
      (g := fun d => .local none (isMutable d.2)) (hnone.trans h) hl
    exact ⟨_, _, hd⟩

end SourceRecord

/-! ## Initialization and assignment of bindings -/

inductive Binding.Becomes : Binding → Binding → Prop
  | refl (b : Binding) : Becomes b b
  | first (v : Value) (mutable : Bool) : Becomes (.local none mutable) (.local (some v) mutable)
  | next (v v' : Value) : Becomes (.local (some v) true) (.local (some v') true)

inductive Environment.Writes (env env' : Environment) : Prop
  | first {name : String} {v : Value} : env.initialize? name v = some env' → Writes env env'
  | next {name : String} {v : Value} : env.assign name v = .ok env' → Writes env env'

namespace Environment

variable {env env' : Environment} {n : String} {b : Binding}

theorem Writes.get? (h : env.Writes env') (hb : env.get? n = some b) :
    ∃ b', env'.get? n = some b' ∧ b.Becomes b' := by
  have hput : ∀ {name c c'}, env.get? name = some c → c.Becomes c' → env' = env.put name c' →
      ∃ b', env'.get? n = some b' ∧ b.Becomes b' := by
    rintro name c c' hc hbecomes rfl
    by_cases hn : name = n
    · subst hn
      cases hb.symm.trans hc
      exact ⟨c', get?_put_self env name c', hbecomes⟩
    · exact ⟨b, (get?_put_of_ne env c' hn).trans hb, .refl b⟩
  cases h with
  | @first name v h =>
    rw [initialize?] at h
    split at h
    · cases h
      exact hput ‹_› (.first v _) rfl
    · cases h
  | @next name v h =>
    rw [assign] at h
    split at h
    · cases h
      exact hput ‹_› (.next _ v) rfl
    all_goals cases h

/-- What an import leads to does not change. -/
theorem import_of_writes {target : ModuleId} {name : String} (h : ReflTransGen Writes env env')
    (hb : env.get? n = some (.import target name)) :
    env'.get? n = some (.import target name) := by
  induction h with
  | refl => exact hb
  | tail _ hw ih =>
    obtain ⟨b, hb, hbecomes⟩ := hw.get? ih
    cases hbecomes
    exact hb

/-- The value of a constant does not change. -/
theorem constant_of_writes {v : Value} (h : ReflTransGen Writes env env')
    (hb : env.get? n = some (.local (some v) false)) :
    env'.get? n = some (.local (some v) false) := by
  induction h with
  | refl => exact hb
  | tail _ hw ih =>
    obtain ⟨b, hb, hbecomes⟩ := hw.get? ih
    cases hbecomes
    exact hb

theorem local_of_writes (h : ReflTransGen Writes env env')
    (hb : ∃ v mutable, env.get? n = some (.local v mutable)) :
    ∃ v mutable, env'.get? n = some (.local v mutable) := by
  induction h with
  | refl => exact hb
  | tail _ hw ih =>
    obtain ⟨v, mutable, ih⟩ := ih
    obtain ⟨b, hb, hbecomes⟩ := hw.get? ih
    cases hbecomes with
    | refl => exact ⟨v, mutable, hb⟩
    | first v mutable => exact ⟨some v, mutable, hb⟩
    | next v v' => exact ⟨some v', true, hb⟩

end Environment

/-! ## Environments that fit the graph -/

namespace ExportGraph

variable {σ κ : Type} {G : ExportGraph} {world : Machine σ κ → Prop} {host : Host σ κ}
variable {s s' : Machine σ κ} {m : ModuleId} {record : SourceRecord} {env env' : Environment}
variable {path : List String} {i : ImportEntry} {b : Binding}

/-- The binding of an import, which the graph determines: a namespace is a constant, and a name
leads to the one binding that it stands for. -/
inductive Imported (G : ExportGraph) (m : ModuleId) (i : ImportEntry) : Binding → Prop
  | star {n : ModuleId} : i.importName = none → G.target m i.request = some n →
      Imported G m i (.local (some (.namespace n)) false)
  | namespace {n t : ModuleId} {name : String} : i.importName = some name →
      G.target m i.request = some n → G.Binds (n, name) (t, .namespace) →
      Imported G m i (.local (some (.namespace t)) false)
  | name {n t : ModuleId} {name binding : String} : i.importName = some name →
      G.target m i.request = some n → G.Binds (n, name) (t, .name binding) →
      Imported G m i (.import t binding)

/-- All imports of a module have their bindings, and what its local exports mean is its own. -/
structure Fits (G : ExportGraph) (m : ModuleId) (record : SourceRecord) (env : Environment) :
    Prop where
  imports : ∀ i ∈ record.imports, ∃ b, G.Imported m i b ∧ env.get? i.localName = some b
  own : ∀ e ∈ record.localExports, ∃ v mutable, env.get? e.localName = some (.local v mutable)

theorem Fits.writes (h : G.Fits m record env) (hw : ReflTransGen Environment.Writes env env') :
    G.Fits m record env' where
  imports i hi := by
    obtain ⟨b, himported, hb⟩ := h.imports i hi
    refine ⟨b, himported, ?_⟩
    cases himported with
    | star | «namespace» => exact Environment.constant_of_writes hw hb
    | name => exact Environment.import_of_writes hw hb
  own e he := Environment.local_of_writes hw (h.own e he)

/-- An environment in which the imports have their bindings fits when it is completed. -/
theorem fits_complete (hscoped : record.Scoped)
    (himports : ∀ i ∈ record.imports, ∃ b, G.Imported m i b ∧ env.get? i.localName = some b)
    (hrest : ∀ n ∉ record.imports.map (·.localName), env.get? n = none) :
    G.Fits m record (record.complete env) where
  imports i hi := by
    obtain ⟨b, himported, hb⟩ := himports i hi
    exact ⟨b, himported, SourceRecord.get?_complete hb⟩
  own e he := by
    rcases hscoped.own e he with hd | ⟨i, hi, hname, hlocal⟩
    · exact SourceRecord.get?_complete_of_declared hd (hrest _ (hscoped.disjoint _ hd))
    · obtain ⟨b, himported, hb⟩ := himports i hi
      rw [← hlocal]
      cases himported with
      | star => exact ⟨_, _, SourceRecord.get?_complete hb⟩
      | «namespace» hsome => rw [hname] at hsome; cases hsome
      | name hsome => rw [hname] at hsome; cases hsome

/-! ## Binding the imports -/

theorem namespaceBinding_ok {request : String} {t : ModuleId}
    (hrun : namespaceBinding host path request t s = some (.ok b, s')) :
    b = .local (some (.namespace t)) false := by
  obtain ⟨v, s₁, hnamespace, h⟩ | ⟨e, -, he⟩ := throwing_bind.1 hrun
  · cases h
    obtain ⟨x, hx, hv⟩ := Linking.ofAct_eq_some.1 hnamespace
    cases x with
    | error e => cases hv
    | ok v' =>
      cases hv
      obtain ⟨keys, s₂, -, h⟩ | ⟨e, -, he⟩ := throwing_bind.1 hx
      · cases h
        rfl
      · cases he
  · cases he

section Bindings

variable (h : G.Serves world host) (hlist : G.Listed) (hdepth : G.bound < host.depth)
include h hlist hdepth

theorem importBinding_ok (hs : G.source m = some record) (hi : i ∈ record.imports) (hw : world s)
    (hm : m ∈ G.modules) (hh : s.Has m)
    (hrun : importBinding host path m i s = some (.ok b, s')) : G.Imported m i b := by
  rw [importBinding] at hrun
  cases himp : i.importName with
  | none =>
    simp only [himp] at hrun
    obtain ⟨n, s₁, hresolve, hrun⟩ | ⟨e, -, he⟩ := throwing_bind.1 hrun
    · obtain ⟨r, s₂, hresolve', -, hreplies⟩ := resolveRequest_returns h hw hm hh path i.request
      cases hresolve.symm.trans hresolve'
      rw [namespaceBinding_ok hrun]
      cases hreplies with
      | answered ht hn => exact .star himp ht
    · cases he
  | some name =>
    simp only [himp] at hrun
    obtain ⟨⟨t, c⟩, s₁, hresolve, hrun⟩ | ⟨e, -, he⟩ := throwing_bind.1 hrun
    · obtain ⟨r, s₂, hresolve', -, himports⟩ := resolveImport_returns h hlist hdepth hs
        ((hlist m record hs).imports i hi) hw hm hh path name
      cases hresolve.symm.trans hresolve'
      obtain ⟨-, n, ht, hbinds⟩ := himports.found _ rfl
      cases c with
      | «namespace» =>
        rw [namespaceBinding_ok hrun]
        exact .namespace himp ht hbinds
      | name binding =>
        cases hrun
        exact .name himp ht hbinds
    · cases he

/-- Each import is bound, and the other names are as they were. -/
theorem bindImports_ok (hs : G.source m = some record) (hm : m ∈ G.modules)
    (path : List String) (imports : List ImportEntry) :
    ∀ {env s env' s'}, (∀ i ∈ imports, i ∈ record.imports) →
      (imports.map (·.localName)).Nodup → world s → s.Has m →
      bindImports host path m imports env s = some (.ok env', s') →
        (∀ i ∈ imports, ∃ b, G.Imported m i b ∧ env'.get? i.localName = some b) ∧
          ∀ n ∉ imports.map (·.localName), env'.get? n = env.get? n := by
  induction imports with
  | nil =>
    intro env s env' s' _ _ _ _ hrun
    cases hrun
    exact ⟨fun _ hi => (nomatch hi), fun _ _ => rfl⟩
  | cons i rest ih =>
    intro env s env' s' hsub hdistinct hw hh hrun
    obtain ⟨hi, hsub⟩ := List.forall_mem_cons.1 hsub
    rw [List.map_cons, List.nodup_cons] at hdistinct
    obtain ⟨b, s₁, hbinding, hrun⟩ | ⟨e, -, he⟩ := throwing_bind.1 hrun
    · obtain ⟨r, s₂, hbinding', ⟨hw₁, hgrow⟩, -⟩ := importBinding_returns h hlist hdepth hs
        ((hlist m record hs).imports i hi) hw hm hh path
      cases hbinding.symm.trans hbinding'
      obtain ⟨hbound, hother⟩ := ih hsub hdistinct.2 hw₁ (hgrow m hh) hrun
      refine ⟨List.forall_mem_cons.2 ⟨⟨b, ?_, ?_⟩, hbound⟩, fun n hn => ?_⟩
      · exact importBinding_ok h hlist hdepth hs hi hw hm hh hbinding
      · rw [hother _ hdistinct.1, Environment.get?_put_self]
      · rw [List.map_cons, List.mem_cons, not_or] at hn
        rw [hother n hn.2, Environment.get?_put_of_ne _ _ (Ne.symm hn.1)]
    · cases he

/-- The environment that the initialization of a module makes fits the graph. -/
theorem fits_of_bindImports (hs : G.source m = some record) (hscoped : record.Scoped)
    (hm : m ∈ G.modules) (hw : world s) (hh : s.Has m)
    (hrun : bindImports host path m record.imports .empty s = some (.ok env, s')) :
    G.Fits m record (record.complete env) := by
  obtain ⟨himports, hrest⟩ := bindImports_ok h hlist hdepth hs hm path record.imports
    (fun _ => id) hscoped.distinct hw hh hrun
  exact fits_complete hscoped himports hrest

end Bindings

end ExportGraph

end ModuleGraph

import ModuleGraph.Proofs.Linking.Contract
import ModuleGraph.Proofs.Runs.View

/-! # What the search of a link sees of a run

During a run the host may change environments whenever it is called. The search of a link does not
depend on them: it sees bare modules, of which nothing but the fields of the search and the requests
are left. So it ends as it would if hooks changed nothing. -/

namespace ModuleGraph

open Relation

variable {σ κ : Type} {journal : σ → Journal} {owner : κ → ModuleId} {reserved : Set PromiseId}
variable {hosts : Set (Host σ κ)} {host : Host σ κ}

namespace ModuleKind

variable {k k' : ModuleKind}

def bare (k : ModuleKind) : ModuleKind :=
  match k with
  | .source _ _ c | .foreign _ c => .source default none c
  | .leaf state => .leaf state

theorem cyclic?_bare (k : ModuleKind) : k.bare.cyclic? = k.cyclic? := by cases k <;> rfl

theorem bare_eq_leaf {state : LeafState} : k.bare = .leaf state ↔ k = .leaf state := by
  cases k <;> simp [bare]

theorem bare_updateCyclic (k : ModuleKind) (f : Cyclic → Cyclic) :
    (k.updateCyclic f).bare = k.bare.updateCyclic f := by cases k <;> rfl

theorem bare_takeBack (k : ModuleKind) : (Machine.takeBack k).bare = Machine.takeBack k.bare := by
  cases k <;> rfl

theorem bare_congr (hc : k'.cyclic? = k.cyclic?) (hl : k'.leaf? = k.leaf?) : k'.bare = k.bare := by
  cases k <;> cases k' <;> simp_all [cyclic?, leaf?, bare]

theorem IsNew.bare (h : k.IsNew) : k.bare.IsNew := by
  cases k with
  | source r env c => exact ⟨rfl, h.2⟩
  | foreign i c => exact ⟨rfl, h.2⟩
  | leaf state => exact h

end ModuleKind

namespace Machine

variable {s s' : Machine σ κ} {m n x : ModuleId} {f : ModuleKind → ModuleKind}

/-! ## Bare modules -/

def bare (s : Machine σ κ) : Machine σ κ :=
  { s with modules := s.modules.map fun x => { x with kind := x.kind.bare } }

theorem module_bare (s : Machine σ κ) (m : ModuleId) :
    s.bare.module m = { s.module m with kind := (s.module m).kind.bare } := by
  simp only [module, bare, Array.getD_eq_getD_getElem?, Array.getElem?_map]
  cases s.modules[m.index]? <;> rfl

theorem kind_bare (s : Machine σ κ) (m : ModuleId) :
    (s.bare.module m).kind = (s.module m).kind.bare := by rw [module_bare]

theorem has_bare (s : Machine σ κ) (m : ModuleId) : s.bare.Has m ↔ s.Has m := by
  simp [Has, bare]

theorem cyclic?_bare (s : Machine σ κ) (m : ModuleId) : s.bare.cyclic? m = s.cyclic? m := by
  rw [cyclic?_eq, kind_bare, ModuleKind.cyclic?_bare, cyclic?_eq]

theorem status_bare (s : Machine σ κ) (m : ModuleId) : s.bare.status m = s.status m := by
  rw [status, kind_bare, status]
  cases (s.module m).kind <;> rfl

theorem requested_bare (s : Machine σ κ) (m : ModuleId) : s.bare.requested m = s.requested m :=
  requested_eq_of_cyclic? (cyclic?_bare s m)

theorem bare_updateKind {g : ModuleKind → ModuleKind}
    (h : (f (s.module m).kind).bare = g (s.module m).kind.bare) :
    (s.updateKind m f).bare = s.bare.updateKind m g := by
  simp only [bare, updateKind, updateModule]
  congr 1
  refine Array.ext (by simp) fun i hi _ => ?_
  simp only [Array.getElem_map, Array.getElem_modify]
  split
  · rename_i e
    subst e
    have hlt : m.index < s.modules.size := by simpa using hi
    have hm : s.module m = s.modules[m.index] := by
      simp [module, Array.getD_eq_getD_getElem?, Array.getElem?_eq_getElem hlt]
    rw [← hm, h]
  · rfl

theorem linkView_bare : LinkView (bare : Machine σ κ → Machine σ κ) where
  host_eq _ := rfl
  has := has_bare
  cyclic? := cyclic?_bare
  leaf_iff s m state := by rw [kind_bare, ModuleKind.bare_eq_leaf]
  updateCyclic s m f := bare_updateKind (ModuleKind.bare_updateCyclic _ f)
  updateLeaf s m f state state' hm hf := bare_updateKind (by rw [hm, hf]; exact hf.symm)
  unlink s m := by
    rw [unlink_eq_updateKind, unlink_eq_updateKind]
    exact bare_updateKind (ModuleKind.bare_takeBack _)

/-! ## Calls of the host -/

theorem keeps_of_call (ht : ∀ host ∈ hosts, ∀ p e h, journal (host.track p e h) = journal h)
    (h : Call journal reserved hosts s s') :
    s.bare.Keeps journal (fun _ => False) s'.bare := by
  have hq := quiet_of_call ht h
  suffices hkind : (∀ x, s.Has x → (s'.module x).kind.bare = (s.module x).kind.bare) ∧
      ∀ x, ¬s.Has x → (s'.module x).kind.IsNew by
    refine ⟨fun x hx => ?_, fun x hx _ => ?_, fun _ _ hx => hx.elim, fun x hx _ => ?_, hq.noted⟩
    · rw [has_bare] at hx ⊢
      exact hq.has hx
    · rw [kind_bare, kind_bare, hkind.1 x ((has_bare s x).1 hx)]
    · rw [kind_bare]
      exact (hkind.2 x fun hn => hx ((has_bare s x).2 hn)).bare
  obtain he | ⟨hb, -⟩ := h.elsewhere_or_beside ht
  · exact ⟨fun x hx => ModuleKind.bare_congr (he.cyclic x hx) (he.leaf x hx), he.made⟩
  · have hmodule : ∀ x, s'.module x = s.module x := fun x => by rw [module, hb.modules, module]
    exact ⟨fun x _ => by rw [hmodule], fun x hx => by rw [hmodule]; exact isNew_of_not_has hx⟩

theorem keeps_of_calls (ht : ∀ host ∈ hosts, ∀ p e h, journal (host.track p e h) = journal h)
    (h : Calls journal reserved hosts s s') : s.bare.Keeps journal (fun _ => False) s'.bare := by
  have hcomp := Keeps.composes (κ := κ) journal fun _ => False
  induction h with
  | refl => exact hcomp.refl _
  | tail _ hc ih => exact hcomp.trans ih (keeps_of_call ht hc)

/-- A change of a module that concerns neither its evaluation nor its linking. -/
theorem elsewhere_updateModule (journal : σ → Journal) (s : Machine σ κ) (m : ModuleId)
    {f : Module → Module} (hf : ∀ x, (f x).kind.cyclic? = x.kind.cyclic? ∧
      (f x).kind.leaf? = x.kind.leaf? ∧ (x.kind.IsRunnable → (f x).kind.IsRunnable)) :
    s.Elsewhere journal (s.updateModule m f) := by
  by_cases hm : s.Has m
  · refine ⟨fun x hx => (has_updateModule f).2 hx, fun x _ => ?_, fun x _ => ?_, fun x _ => ?_,
      fun x hx => ?_, .refl s, ⟨[], Journal.answers_nil, (List.append_nil _).symm⟩, rfl,
      fun _ => rfl, fun _ => rfl, rfl, ⟨rfl, fun _ => rfl⟩, fun _ _ hi => hi, rfl, rfl⟩
    · rw [cyclic?_eq, cyclic?_eq, module_updateModule _ _ _ _ hm]
      split
      · exact (hf _).1
      · rfl
    · rw [module_updateModule _ _ _ _ hm]
      split
      · exact (hf _).2.1
      · rfl
    · rw [module_updateModule _ _ _ _ hm]
      split
      · exact (hf _).2.2
      · exact id
    · rw [module_updateModule _ _ _ _ hm, if_neg]
      · exact isNew_of_not_has hx
      · rintro rfl
        exact hx hm
  · rw [updateModule_of_not_has _ hm]
    exact ⟨fun _ hx => hx, fun _ _ => rfl, fun _ _ => rfl, fun _ _ => id, fun _ => isNew_of_not_has,
      .refl s, ⟨[], Journal.answers_nil, (List.append_nil _).symm⟩, rfl, fun _ => rfl, fun _ => rfl,
      rfl, ⟨rfl, fun _ => rfl⟩, fun _ _ hi => hi, rfl, rfl⟩

theorem calls_looksUp (hc : Conduct journal owner reserved hosts) (hh : host ∈ hosts) :
    LooksUp host (Calls (κ := κ) journal reserved hosts) where
  toComposes := .reflTransGen _
  resolve m request := hc.resolve host hh (.module m) request
  exportedNames := hc.exportedNames host hh
  resolveExport := hc.resolveExport host hh
  keep s m _ := .single (.elsewhere (elsewhere_updateModule journal s m fun _ => ⟨rfl, rfl, id⟩))

def instantiate (s : Machine σ κ) (m : ModuleId) (hasAwait : Bool) : Machine σ κ :=
  s.updateKind m fun
    | .foreign _ c => .foreign true { c with hasAwait }
    | k => k

theorem keeps_instantiate (journal : σ → Journal) (s : Machine σ κ) (m : ModuleId)
    (hasAwait : Bool) : s.bare.Keeps journal (· = m) (s.instantiate m hasAwait).bare := by
  cases hk : (s.module m).kind with
  | foreign i c =>
    rw [instantiate, bare_updateKind (g := (·.updateCyclic fun c => { c with hasAwait }))
      (by rw [hk]; rfl)]
    exact Keeps.updateKind journal _ m fun k => ⟨hasAwait, ModuleKind.cyclic?_updateCyclic _ k⟩
  | source r env c | leaf state =>
    rw [instantiate, updateKind_of_eq (by rw [hk])]
    exact (Keeps.composes journal _).refl _

/-- Initializing a module calls the host. At the end a foreign module gets its instance. -/
theorem initializeModule_cases (hc : Conduct journal owner reserved hosts) (hh : host ∈ hosts)
    {path : List String} {result : Except LinkError Unit}
    (hrun : initializeModule host path m s = some (result, s')) :
    ∃ s₁, Calls journal reserved hosts s s₁ ∧
      (s' = s₁ ∧ (result = .ok () → s.record? m ≠ none) ∨ ∃ hasAwait,
        s' = s₁.instantiate m hasAwait) := by
  have hlook := calls_looksUp (κ := κ) hc hh
  rw [initializeModule, Linking.view_bind] at hrun
  cases hr : s.record? m with
  | some record =>
    rw [hr] at hrun
    refine ⟨s', Within.bind hlook.toComposes ?_ (fun _ => ?_) _ _ _ hrun,
      .inl ⟨rfl, fun _ e => by cases e⟩⟩
    · exact Within.forM hlook.toComposes (hlook.asks.checkIndirect path m) _
    refine Within.bind hlook.toComposes (hlook.bindImports path m _ _) fun env => ?_
    refine Within.bind hlook.toComposes (fun s r s' e => ?_) fun _ => .ofAct (hc.prepare host hh m)
    cases e
    refine .single (.elsewhere (elsewhere_updateModule journal s m fun x => ?_))
    cases hk : x.kind <;>
      simp [ModuleKind.setEnvironment, ModuleKind.cyclic?, ModuleKind.leaf?, ModuleKind.IsRunnable]
  | none =>
    rw [hr] at hrun
    have hfirst : Within (Calls journal reserved hosts) (host.initializeForeign m >>= fun _ =>
        host.instantiateForeign m) :=
      Within.bind hlook.toComposes (hc.initializeForeign host hh m) fun _ =>
        hc.instantiateForeign host hh m
    obtain ⟨hasAwait, s₁, h₁, h₂⟩ | ⟨e, h₁, rfl⟩ := throwing_bind.1 hrun
    · cases h₂
      exact ⟨s₁, Within.ofAct hfirst _ _ _ h₁, .inr ⟨hasAwait, rfl⟩⟩
    · exact ⟨s', Within.ofAct hfirst _ _ _ h₁, .inl ⟨rfl, fun e => by cases e⟩⟩

/-- The search of a link sees of the hooks that they change nothing. -/
theorem linksThrough_bare (hc : Conduct journal owner reserved hosts) (hh : host ∈ hosts) :
    LinksThrough journal bare host :=
  { linkView_bare with
    resolve := fun hr => keeps_of_calls hc.track (hc.resolve host hh _ _ _ _ _ hr)
    answers := fun hr => ((hc.found host hh hr).imp_right fun h => h _ rfl).symm
    linkLeaf := fun hr => keeps_of_calls hc.track (hc.linkLeaf host hh _ _ _ _ hr)
    module := fun {names m s r s'} hr => by
      obtain ⟨s₁, hcalls, ⟨rfl, -⟩ | ⟨hasAwait, rfl⟩⟩ := initializeModule_cases hc hh hr
      · exact (keeps_of_calls hc.track hcalls).mono fun _ => False.elim
      · exact (Keeps.composes journal _).trans
          ((keeps_of_calls hc.track hcalls).mono fun _ => False.elim)
          (keeps_instantiate journal s₁ m hasAwait) }

/-! ## Closed links -/

theorem LinkClosed.atRest (h : s.LinkClosed journal) : s.bare.AtRest journal where
  unlinked x hx := by
    rw [status_bare] at hx
    have hb := h.blank x hx
    rw [kind_bare]
    rw [Machine.cyclic, cyclic?_eq] at hb
    rw [status] at hx
    cases hk : (s.module x).kind with
    | source r env c =>
      rw [hk] at hb
      exact ⟨rfl, hb⟩
    | foreign i c =>
      rw [hk] at hb
      exact ⟨rfl, hb⟩
    | leaf state =>
      rw [hk] at hx
      cases state with
      | unlinked => rfl
      | linked => exact (hx trivial).elim
      | evaluated p => exact (hx trivial).elim
  answered x hx r hr := by
    rw [status_bare] at hx
    rw [requested_bare] at hr
    obtain ⟨n, hn, hl⟩ := h.answered x hx r hr
    exact ⟨n, hn, by rwa [status_bare]⟩

theorem linkClosed_of_atRest (h : s.bare.AtRest journal)
    (hr : ∀ x, (s.status x).IsLinked → (s.module x).kind.IsRunnable) : s.LinkClosed journal where
  blank x hx := by
    have hu := h.unlinked x (by rwa [status_bare])
    rw [kind_bare] at hu
    rw [Machine.cyclic, cyclic?_eq]
    cases hk : (s.module x).kind with
    | source r env c =>
      rw [hk] at hu
      exact hu.2
    | foreign i c =>
      rw [hk] at hu
      exact hu.2
    | leaf state => exact ⟨rfl, rfl, rfl⟩
  answered x hx r hr := by
    obtain ⟨n, hn, hl⟩ := h.answered x (by rwa [status_bare]) r (by rwa [requested_bare])
    exact ⟨n, hn, by rwa [status_bare] at hl⟩
  runnable := hr

end Machine

end ModuleGraph

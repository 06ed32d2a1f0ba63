import ModuleGraph.Proofs.Journal
import ModuleGraph.Proofs.Lookups

/-! # How a host conducts itself during a link

The hooks that a link calls may make modules and give answers, which the journal notes. They do not
link anything themselves, and they leave the modules that exist as they are. -/

namespace ModuleGraph

variable {σ κ : Type}

/-- What a hook of the host may do during a link: make modules and note answers. Of the modules
that exist it changes the free ones only, and of their cyclic fields only whether they await. -/
structure Machine.Keeps (journal : σ → Journal) (free : ModuleId → Prop) (s s' : Machine σ κ) :
    Prop where
  has : ∀ m, s.Has m → s'.Has m
  kind : ∀ m, s.Has m → ¬free m → (s'.module m).kind = (s.module m).kind
  cyclic : ∀ m, s.Has m → free m →
    ∃ w, s'.cyclic? m = (s.cyclic? m).map fun c => { c with hasAwait := w }
  made : ∀ m, ¬s.Has m → ¬free m → (s'.module m).kind.IsNew
  noted : ∃ k : Journal, k.Answers ∧ journal s'.host = journal s.host ++ k

namespace Machine.Keeps

variable {journal : σ → Journal} {free free' : ModuleId → Prop} {s s' : Machine σ κ} {m : ModuleId}

theorem map_hasAwait (c? : Option Cyclic) :
    ∃ w, c? = c?.map fun c => { c with hasAwait := w } := by
  cases c? with
  | none => exact ⟨false, rfl⟩
  | some c => exact ⟨c.hasAwait, rfl⟩

theorem cyclic?_eq (h : s.Keeps journal free s') (hm : s.Has m) :
    ∃ w, s'.cyclic? m = (s.cyclic? m).map fun c => { c with hasAwait := w } := by
  by_cases hf : free m
  · exact h.cyclic m hm hf
  · rw [Machine.cyclic?_eq, h.kind m hm hf, ← Machine.cyclic?_eq]
    exact map_hasAwait _

theorem composes (journal : σ → Journal) (free : ModuleId → Prop) :
    Composes (Machine.Keeps (κ := κ) journal free) where
  refl s :=
    { has := fun _ h => h
      kind := fun _ _ _ => rfl
      cyclic := fun _ _ _ => map_hasAwait _
      made := fun _ h _ => isNew_of_not_has h
      noted := ⟨[], Journal.answers_nil, (List.append_nil _).symm⟩ }
  trans {s₁ s₂ s₃} h h' :=
    { has := fun m hm => h'.has m (h.has m hm)
      kind := fun m hm hf => (h'.kind m (h.has m hm) hf).trans (h.kind m hm hf)
      cyclic := fun m hm hf => by
        obtain ⟨w, hw⟩ := h.cyclic m hm hf
        obtain ⟨w', hw'⟩ := h'.cyclic m (h.has m hm) hf
        exact ⟨w', by rw [hw', hw, Option.map_map]; rfl⟩
      made := fun m hm hf => by
        by_cases hm' : s₂.Has m
        · rw [h'.kind m hm' hf]
          exact h.made m hm hf
        · exact h'.made m hm' hf
      noted := by
        obtain ⟨k, hk, e⟩ := h.noted
        obtain ⟨k', hk', e'⟩ := h'.noted
        exact ⟨k ++ k', hk.append hk', by rw [e', e, List.append_assoc]⟩ }

theorem mono (h : s.Keeps journal free s') (hf : ∀ m, free m → free' m) :
    s.Keeps journal free' s' where
  has := h.has
  kind m hm hm' := h.kind m hm fun e => hm' (hf m e)
  cyclic _ hm _ := h.cyclic?_eq hm
  made m hm hm' := h.made m hm fun e => hm' (hf m e)
  noted := h.noted

theorem of_modules (hm : s'.modules = s.modules)
    (hj : ∃ k : Journal, k.Answers ∧ journal s'.host = journal s.host ++ k) :
    s.Keeps journal free s' := by
  have hmodule : ∀ m, s'.module m = s.module m := fun m => by rw [module, hm, module]
  refine ⟨fun m h => by rwa [Has, hm], fun m _ _ => by rw [hmodule], fun m _ _ => ?_,
    fun m h _ => ?_, hj⟩
  · rw [Machine.cyclic?_eq, hmodule, ← Machine.cyclic?_eq]
    exact map_hasAwait _
  · rw [hmodule]
    exact isNew_of_not_has h

/-- An update of one module that leaves its cyclic fields, or changes whether it awaits. -/
theorem updateKind (journal : σ → Journal) (s : Machine σ κ) (m : ModuleId)
    {f : ModuleKind → ModuleKind}
    (hf : ∀ k, ∃ w, (f k).cyclic? = k.cyclic?.map fun c => { c with hasAwait := w }) :
    s.Keeps journal (· = m) (s.updateKind m f) := by
  by_cases hm : s.Has m
  · refine ⟨fun n hn => by simpa using hn, fun n hn hne => ?_, fun n hn e => ?_,
      fun n hn hne => ?_, ⟨[], Journal.answers_nil, (List.append_nil _).symm⟩⟩
    · rw [kind_updateKind f hm, if_neg hne]
    · subst e
      rw [Machine.cyclic?_eq, kind_updateKind f hm, if_pos rfl]
      exact hf _
    · rw [kind_updateKind f hm, if_neg hne]
      exact isNew_of_not_has hn
  · rw [Machine.updateKind, updateModule_of_not_has _ hm]
    exact (composes journal _).refl s

theorem exports (journal : σ → Journal) (s : Machine σ κ) (m : ModuleId) (keys : List String) :
    s.Keeps journal (fun _ => False)
      (s.updateModule m fun x => { x with exports := some keys }) := by
  have hkind : ∀ n, ((s.updateModule m fun x => { x with exports := some keys }).module n).kind =
      (s.module n).kind := by
    intro n
    by_cases hm : s.Has m
    · rw [module_updateModule _ _ _ _ hm]
      split <;> rfl
    · rw [updateModule_of_not_has _ hm]
  refine ⟨fun n hn => by simpa using hn, fun n _ _ => hkind n, fun _ _ e => e.elim,
    fun n hn _ => ?_, ⟨[], Journal.answers_nil, (List.append_nil _).symm⟩⟩
  rw [hkind n]
  exact isNew_of_not_has hn

end Machine.Keeps

/-- How a host conducts itself during a link. Each module that it gives for a request is noted in
the journal. Its hooks change no module that exists; only `prepare` may change the environment of
the module that it is called for. -/
structure LinkConduct (journal : σ → Journal) (host : Host σ κ) : Prop where
  resolve : ∀ m request,
    Within (Machine.Keeps journal fun _ => False) (host.resolve (.module m) request)
  answers : ∀ {m request s n s'}, host.resolve (.module m) request s = some (.ok n, s') →
    Entry.resolved m request n ∈ journal s'.host ∧ s'.Has n
  exportedNames : ∀ m,
    Within (Machine.Keeps journal fun _ => False) (Act.ofRun (host.exportedNames m))
  resolveExport : ∀ m name visited,
    Within (Machine.Keeps journal fun _ => False) (host.resolveExport m name visited)
  linkLeaf : ∀ m, Within (Machine.Keeps journal fun _ => False) (host.linkLeaf m)
  initializeForeign : ∀ m, Within (Machine.Keeps journal fun _ => False) (host.initializeForeign m)
  instantiateForeign : ∀ m,
    Within (Machine.Keeps journal fun _ => False) (host.instantiateForeign m)
  prepare : ∀ m, Within (Machine.Keeps journal (· = m)) (host.prepare m)

namespace LinkConduct

variable {journal : σ → Journal} {host : Host σ κ}

theorem looksUp (h : LinkConduct journal host) :
    LooksUp host (Machine.Keeps journal fun _ => False) where
  toComposes := Machine.Keeps.composes journal _
  resolve := h.resolve
  exportedNames := h.exportedNames
  resolveExport := h.resolveExport
  keep := Machine.Keeps.exports journal

/-- A module that is initialized is the only one that changes. -/
theorem initializes (h : LinkConduct journal host) (m : ModuleId) :
    Initializes host m (Machine.Keeps journal (· = m)) :=
  have hlook : ∀ {ε α : Type} {x : ExceptT ε (Run σ κ) α},
      Within (Machine.Keeps journal fun _ => False) x → Within (Machine.Keeps journal (· = m)) x :=
    fun hx s r s' e => (hx s r s' e).mono fun _ => False.elim
  { toComposes := Machine.Keeps.composes journal _
    resolve := fun n request => hlook (h.resolve n request)
    exportedNames := fun n => hlook (h.exportedNames n)
    resolveExport := fun n name visited => hlook (h.resolveExport n name visited)
    keys := fun n => hlook (h.looksUp.namespaceKeys n)
    prepare := h.prepare m
    foreign := hlook (h.initializeForeign m)
    instantiate := hlook (h.instantiateForeign m)
    environment := fun s env => by
      refine Machine.Keeps.updateKind journal s m fun k => ?_
      obtain ⟨w, hw⟩ := Machine.Keeps.map_hasAwait k.cyclic?
      exact ⟨w, by rw [← hw]; cases k <;> rfl⟩
    instantiated := fun s hasAwait => by
      refine Machine.Keeps.updateKind journal s m fun k => ?_
      cases k with
      | source r env c => exact ⟨c.hasAwait, rfl⟩
      | foreign i c => exact ⟨hasAwait, rfl⟩
      | leaf state => exact ⟨false, rfl⟩ }

theorem initializeModule (h : LinkConduct journal host) (path : List String) (m : ModuleId) :
    Within (Machine.Keeps journal (· = m)) (initializeModule host path m) :=
  (h.initializes m).initializeModule path

end LinkConduct

end ModuleGraph

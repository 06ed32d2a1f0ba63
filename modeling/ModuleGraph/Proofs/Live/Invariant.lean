import ModuleGraph.Proofs.Exports.Keys
import ModuleGraph.Proofs.Live.Environments

/-! # Machines whose bindings are live

Between two operations each environment fits the graph, each linked module has an environment, and
what a linked module requests is linked. This stays so while bodies run: modules are made and
evaluated, bindings are initialized and assigned, and namespaces are asked for. -/

namespace ModuleGraph

open Relation

variable {σ κ : Type} {journal : σ → Journal} {world : Machine σ κ → Prop} {host : Host σ κ}
variable {s s' s₁ : Machine σ κ} {m x : ModuleId} {free : ModuleId → Prop}

/-! ## Changes of modules -/

/-- What becomes of a module while bodies run. It does not get another text, and it is neither
linked nor unlinked; of its environment only the values change. -/
structure ModuleKind.Develops (k k' : ModuleKind) : Prop where
  text : k.SameText k'
  linked : k.status.IsLinked → k'.status.IsLinked
  unlinked : k.IsUnlinked → k'.IsUnlinked
  bound : ∀ env, k.environment? = some env →
    ∃ env', k'.environment? = some env' ∧ ReflTransGen Environment.Writes env env'
  blank : k.environment? = none → k'.environment? = none

theorem ModuleKind.Develops.refl (k : ModuleKind) : k.Develops k :=
  ⟨⟨rfl, rfl⟩, id, id, fun env h => ⟨env, h, .refl⟩, id⟩

theorem ModuleKind.Develops.write {k : ModuleKind} {env env' : Environment}
    (hk : k.environment? = some env) (hw : env.Writes env') :
    k.Develops (k.setEnvironment env') := by
  cases k with
  | source r e c =>
    cases hk
    exact ⟨⟨rfl, rfl⟩, id, nofun, fun env h => by cases h; exact ⟨env', rfl, .single hw⟩, nofun⟩
  | foreign i c => cases hk
  | leaf state => cases hk

namespace Machine

/-- A module that is slated to be evaluated when others are: the root of a cycle, a module that
waits for another one, or one whose body waits for its end. -/
inductive Slated (s : Machine σ κ) (x : ModuleId) : Prop
  | root {m : ModuleId} : (s.cyclic m).root = some x → Slated s x
  | parent {m : ModuleId} : x ∈ (s.cyclic m).parents → Slated s x
  | body {r : ReactionId} : s.handler? r = some (.bodyEnded x) → Slated s x

/-- What happens to the machine while bodies run. New modules have nothing that linking makes, and
only linked modules are newly slated. -/
structure Develops (journal : σ → Journal) (s s' : Machine σ κ) : Prop where
  has : ∀ m, s.Has m → s'.Has m
  kind : ∀ m, s.Has m → (s.module m).kind.Develops (s'.module m).kind
  made : ∀ m, ¬s.Has m → (s'.module m).kind.IsNew
  noted : ∀ entry ∈ journal s.host, entry ∈ journal s'.host
  slated : ∀ x, s'.Slated x → s.Slated x ∨ (s.status x).IsLinked

structure Peeks (journal : σ → Journal) (world : Machine σ κ → Prop) (s s' : Machine σ κ) :
    Prop where
  spares : s.SparesKeys world s'
  keeps : s.Keeps journal (fun _ => False) s'
  bodies : ∀ r x, s'.handler? r = some (.bodyEnded x) → ∃ r, s.handler? r = some (.bodyEnded x)

theorem Peeks.composes (journal : σ → Journal) (world : Machine σ κ → Prop) :
    Composes (Machine.Peeks journal world) where
  refl s := ⟨(SparesKeys.composes world).refl s, (Keeps.composes journal _).refl s,
    fun r _ h => ⟨r, h⟩⟩
  trans h h' := by
    refine ⟨(SparesKeys.composes world).trans h.spares h'.spares,
      (Keeps.composes journal _).trans h.keeps h'.keeps, fun r x hr => ?_⟩
    obtain ⟨r', hr'⟩ := h'.bodies r x hr
    exact h.bodies r' x hr'

theorem Slated.of_cycleRoot? {m : ModuleId} (h : s.cycleRoot? m = some x) : s.Slated x := by
  obtain ⟨c, hc, hroot⟩ := Option.bind_eq_some_iff.1 h
  exact .root (m := m) (by rw [cyclic, hc]; exact hroot)

/-- No module is newly slated if the modules lead where they did. -/
theorem Slated.of_cyclic (hroot : ∀ m, (s'.cyclic m).root = (s.cyclic m).root)
    (hparents : ∀ m, (s'.cyclic m).parents = (s.cyclic m).parents)
    (hbodies : ∀ r x, s'.handler? r = some (.bodyEnded x) → ∃ r, s.handler? r = some (.bodyEnded x))
    (h : s'.Slated x) : s.Slated x := by
  cases h with
  | @root m h => exact .root ((hroot m).symm.trans h)
  | @parent m h => exact .parent (hparents m ▸ h)
  | @body r h =>
    obtain ⟨r', hr'⟩ := hbodies r x h
    exact .body hr'

theorem Keeps.cyclic_eq (h : s.Keeps journal (fun _ => False) s') (m : ModuleId) :
    (s'.cyclic m).root = (s.cyclic m).root ∧ (s'.cyclic m).parents = (s.cyclic m).parents := by
  by_cases hm : s.Has m
  · rw [Machine.cyclic, Machine.cyclic?_eq, h.kind m hm id, ← Machine.cyclic?_eq,
      ← Machine.cyclic]
    exact ⟨rfl, rfl⟩
  · obtain ⟨hroot, hparents⟩ := (isNew_of_not_has hm).leads
    obtain ⟨hroot', hparents'⟩ := (h.made m hm id).leads
    exact ⟨hroot'.trans hroot.symm, hparents'.trans hparents.symm⟩

section Keeps

variable (h : s.Keeps journal (fun _ => False) s')
variable (hbodies : ∀ r x, s'.handler? r = some (.bodyEnded x) →
  ∃ r, s.handler? r = some (.bodyEnded x))
include h hbodies

theorem Keeps.slated (hx : s'.Slated x) : s.Slated x :=
  .of_cyclic (fun m => (h.cyclic_eq m).1) (fun m => (h.cyclic_eq m).2) hbodies hx

theorem Keeps.develops : s.Develops journal s' where
  has := h.has
  kind m hm := h.kind m hm id ▸ .refl _
  made m hm := h.made m hm id
  noted entry he := by
    obtain ⟨k, -, e⟩ := h.noted
    rw [e]
    exact List.mem_append_left _ he
  slated _ hx := .inl (h.slated hbodies hx)

end Keeps

theorem Develops.of_modules (hm : s'.modules = s.modules)
    (hj : ∀ entry ∈ journal s.host, entry ∈ journal s'.host)
    (hbodies : ∀ r x, s'.handler? r = some (.bodyEnded x) → s.Slated x ∨ (s.status x).IsLinked) :
    s.Develops journal s' := by
  have hmodule : ∀ m, s'.module m = s.module m := fun m => by rw [module, hm, module]
  have hcyclic : ∀ m, s'.cyclic m = s.cyclic m := fun m => by
    rw [cyclic, cyclic?_eq, hmodule, ← cyclic?_eq, cyclic]
  refine ⟨fun m h => by rwa [Has, hm], fun m _ => hmodule m ▸ .refl _, fun m h => ?_, hj,
    fun x hx => ?_⟩
  · rw [hmodule]
    exact isNew_of_not_has h
  · cases hx with
    | @root m h => exact .inl (.root (hcyclic m ▸ h))
    | @parent m h => exact .inl (.parent (hcyclic m ▸ h))
    | @body r h => exact hbodies r x h

theorem Develops.updateModule (s : Machine σ κ) (m : ModuleId) {f : Module → Module}
    (hf : s.Has m → (s.module m).kind.Develops (f (s.module m)).kind)
    (hroot : ∀ x, (s.updateModule m f).Slated x → s.Slated x ∨ (s.status x).IsLinked) :
    s.Develops journal (s.updateModule m f) := by
  by_cases hm : s.Has m
  · refine ⟨fun n hn => (has_updateModule f).2 hn, fun n _ => ?_, fun n hn => ?_, fun _ => id,
      hroot⟩
    · by_cases e : n = m
      · subst e
        rw [module_updateModule_self _ _ hm]
        exact hf hm
      · rw [module_updateModule_of_ne _ _ (Ne.symm e)]
        exact .refl _
    · have hne : n ≠ m := fun e => hn (e ▸ hm)
      rw [module_updateModule s m n f hm, if_neg hne]
      exact isNew_of_not_has hn
  · rw [updateModule_of_not_has f hm] at hroot ⊢
    exact ⟨fun _ => id, fun _ _ => .refl _, fun _ hn => isNew_of_not_has hn, fun _ => id, hroot⟩

/-- A change of a module that leaves where it leads makes no module slated. -/
theorem Slated.of_updateModule {f : Module → Module}
    (hf : (f (s.module m)).kind.cyclic?.map Cyclic.leads =
      (s.module m).kind.cyclic?.map Cyclic.leads)
    (h : (s.updateModule m f).Slated x) : s.Slated x := by
  have hleads : ∀ n, ((s.updateModule m f).cyclic n).leads = (s.cyclic n).leads := by
    intro n
    by_cases hm : s.Has m
    · rw [cyclic, cyclic, ← Option.getD_map Cyclic.leads, ← Option.getD_map Cyclic.leads,
        cyclic?_eq, module_updateModule s m n f hm, cyclic?_eq]
      split
      · rename_i e
        rw [e, hf]
      · rfl
    · rw [updateModule_of_not_has f hm]
  have hroot : ∀ n, ((s.updateModule m f).cyclic n).root = (s.cyclic n).root := fun n =>
    congrArg (·.2.2.1) (hleads n)
  have hparents : ∀ n, ((s.updateModule m f).cyclic n).parents = (s.cyclic n).parents := fun n =>
    congrArg (·.2.2.2) (hleads n)
  exact h.of_cyclic hroot hparents fun r _ hr => ⟨r, hr⟩

/-- An update of a module makes slated what it leads the module to. -/
theorem Slated.of_updateCyclic {f : Cyclic → Cyclic} {P : ModuleId → Prop}
    (hroot : ∀ c x, (f c).root = some x → c.root = some x ∨ P x)
    (hparents : ∀ c, ∀ x ∈ (f c).parents, x ∈ c.parents ∨ P x)
    (h : (s.updateCyclic m f).Slated x) : s.Slated x ∨ P x := by
  have hcyclic : ∀ n, (s.updateCyclic m f).cyclic n = s.cyclic n ∨
      (s.updateCyclic m f).cyclic n = f (s.cyclic n) := fun n => by
    by_cases hm : s.Has m
    · rw [cyclic, cyclic?_updateCyclic f hm, cyclic]
      split
      · cases s.cyclic? n with
        | none => exact .inl rfl
        | some c => exact .inr rfl
      · exact .inl rfl
    · exact .inl (by rw [updateCyclic, updateKind, updateModule_of_not_has _ hm])
  cases h with
  | @root n h =>
    obtain e | e := hcyclic n
    · exact .inl (.root (e ▸ h))
    · rw [e] at h
      exact (hroot _ x h).imp .root id
  | @parent n h =>
    obtain e | e := hcyclic n
    · exact .inl (.parent (e ▸ h))
    · rw [e] at h
      exact (hparents _ x h).imp .parent id
  | body h => exact .inl (.body h)

/-! ## What hooks do -/

/-- What the host does at one moment while it prepares a module: it looks up names, initializes or
assigns bindings, and asks for namespaces. -/
inductive Instant (journal : σ → Journal) (world : Machine σ κ → Prop) (host : Host σ κ)
    (s s' : Machine σ κ) : Prop
  | peek : s.Peeks journal world s' → Instant journal world host s s'
  | first {m : ModuleId} {name : String} {v : Value} {r : Except Value Unit} :
      initializeBinding m name v s = some (r, s') → Instant journal world host s s'
  | next {m : ModuleId} {name : String} {v : Value} {r : Except Value Unit} :
      assignBinding m name v s = some (r, s') → Instant journal world host s s'
  | keys {m : ModuleId} {r : Except Value (List String)} :
      host.namespaceKeys m s = some (r, s') → Instant journal world host s s'

/-- What happens at one moment while bodies run: such a moment, another change that neither links
modules nor keeps the keys of namespaces, as an evaluation makes it, or a link. -/
inductive Errand (journal : σ → Journal) (world : Machine σ κ → Prop) (host : Host σ κ)
    (s s' : Machine σ κ) : Prop
  | instant : s.Instant journal world host s' → Errand journal world host s s'
  | develop : s.SparesKeys world s' → s.Develops journal s' → Errand journal world host s s'
  | link {m : ModuleId} {result : Except LinkError Unit} : s.Has m →
      host.link m s = some (result, s') → Errand journal world host s s'

end Machine

/-! ## Hosts -/

namespace ExportGraph

variable {G : ExportGraph}

/-- The records of the graph come from texts without errors of scope, and all modules have them. -/
structure Parsed (G : ExportGraph) : Prop where
  source : ∀ m ∈ G.modules, ∃ record, G.source m = some record
  program : ∀ m record, G.source m = some record → ∃ text program,
    SourceRecord.ofProgram text program = .ok record ∧ program.Scoped

theorem Parsed.listed (h : G.Parsed) : G.Listed := by
  intro m record hs
  obtain ⟨text, program, hp, -⟩ := h.program m record hs
  exact SourceRecord.listed_ofProgram hp

theorem Parsed.scoped (h : G.Parsed) {record : SourceRecord} (hs : G.source m = some record) :
    record.Scoped := by
  obtain ⟨text, program, hp, hscoped⟩ := h.program m record hs
  exact SourceRecord.scoped_ofProgram hp hscoped

/-- A host that serves a graph while it links and evaluates modules of it. Lookups change nothing
else, and the modules that are found exist. What is done to promises and within modules does not
lead out of the world; a journal of the answers tells what the graph says, and nothing is taken off
it. -/
structure Animates (G : ExportGraph) (journal : σ → Journal) (world : Machine σ κ → Prop)
    (host : Host σ κ) : Prop where
  serves : G.Serves world host
  conduct : LinkConduct journal host
  lookups : Asks host (Machine.Peeks journal world)
  prepare : ∀ m, Within (ReflTransGen (Machine.Instant journal world host)) (host.prepare m)
  hooks : Hooks host (ReflTransGen (Machine.Errand journal world host))
  found : ∀ {referrer specifier s n s'},
    host.resolve referrer specifier s = some (.ok n, s') → s'.Has n
  all : ∀ {s m}, world s → s.Has m → m ∈ G.modules
  requested : ∀ {s m}, world s → m ∈ G.modules → s.Has m →
    (s.cyclic? m).map (·.requested) = (G.source m).map (·.requested)
  noted : ∀ {s m request n}, world s → m ∈ G.modules →
    Entry.resolved m request n ∈ journal s.host → G.target m request = some n
  text : ∀ s m {f : Module → Module}, (∀ x : Module, x.kind.SameText (f x).kind) →
    Machine.Stays world s (s.updateModule m f)
  aside : ∀ {s s'}, s.Aside host.track s' → Machine.Stays world s s'
  tracked : ∀ p e h, journal (host.track p e h) = journal h

/-! ## The invariant -/

def Fitting (G : ExportGraph) (s : Machine σ κ) : Prop :=
  ∀ m record env, G.source m = some record → s.environment? m = some env → G.Fits m record env

theorem Fitting.develops (h : G.Fitting s) (hs : s.Develops journal s') : G.Fitting s' := by
  intro m record env hsource henv
  by_cases hh : s.Has m
  · cases henv₀ : s.environment? m with
    | none =>
      rw [Machine.environment?, (hs.kind m hh).blank henv₀] at henv
      cases henv
    | some env₀ =>
      obtain ⟨env', henv', hwrites⟩ := (hs.kind m hh).bound env₀ henv₀
      cases henv'.symm.trans henv
      exact (h m record env₀ hsource henv₀).writes hwrites
  · rw [Machine.environment?, (hs.made m hh).environment?] at henv
    cases henv

/-- A machine of the graph between two operations. The namespaces list what they should, the
environments fit, linked modules have one, and what is slated is linked. -/
structure Live (G : ExportGraph) (journal : σ → Journal) (world : Machine σ κ → Prop)
    (s : Machine σ κ) : Prop where
  here : world s
  rest : s.AtRest journal
  kept : G.Kept s
  fits : G.Fitting s
  bound : ∀ m, (s.status m).IsLinked → ∃ env, s.environment? m = some env
  slated : ∀ x, s.Slated x → (s.status x).IsLinked

def StaysLive (G : ExportGraph) (journal : σ → Journal) (world : Machine σ κ → Prop)
    (s s' : Machine σ κ) : Prop :=
  G.Live journal world s → G.Live journal world s' ∧ (∀ m, s.Has m → s'.Has m) ∧
    ∀ m, (s.status m).IsLinked → (s'.status m).IsLinked

theorem StaysLive.composes (G : ExportGraph) (journal : σ → Journal)
    (world : Machine σ κ → Prop) : Composes (G.StaysLive journal world) where
  refl _ hs := ⟨hs, fun _ => id, fun _ => id⟩
  trans h h' hs := by
    obtain ⟨hs₁, hhas, hlinked⟩ := h hs
    obtain ⟨hs₂, hhas', hlinked'⟩ := h' hs₁
    exact ⟨hs₂, fun m hm => hhas' m (hhas m hm), fun m hm => hlinked' m (hlinked m hm)⟩

theorem Live.isUnlinked (h : G.Live journal world s) (hm : ¬(s.status m).IsLinked) :
    (s.module m).kind.IsUnlinked := h.rest.unlinked m hm

/-- While bodies run, a live machine stays live. -/
theorem Live.develops (h : G.Live journal world s) (hs : s.Develops journal s') (hw : world s')
    (hk : G.Kept s') :
    G.Live journal world s' ∧ (∀ m, s.Has m → s'.Has m) ∧
      ∀ m, (s.status m).IsLinked → (s'.status m).IsLinked := by
  have hlinked : ∀ m, (s.status m).IsLinked → (s'.status m).IsLinked := fun m hm =>
    (hs.kind m (Machine.has_of_isLinked hm)).linked hm
  -- What is not linked was not linked before, and is as unlinked as it was.
  have hunlinked : ∀ m, ¬(s.status m).IsLinked → (s'.module m).kind.IsUnlinked := fun m hm => by
    by_cases hh : s.Has m
    · exact (hs.kind m hh).unlinked (h.isUnlinked hm)
    · exact (hs.made m hh).isUnlinked
  have hback : ∀ m, (s'.status m).IsLinked → (s.status m).IsLinked := fun m hm => by
    by_contra hn
    rw [Machine.status, (hunlinked m hn).status_eq] at hm
    exact hm
  refine ⟨⟨hw, ⟨fun m hm => hunlinked m fun hn => hm (hlinked m hn), fun m hm r hr => ?_⟩, hk,
    h.fits.develops hs, fun m hm => ?_, fun x hx => ?_⟩, hs.has, hlinked⟩
  · have hh := Machine.has_of_isLinked (hback m hm)
    have hrequested : s'.requested m = s.requested m := by
      rw [Machine.requested, Machine.cyclic?_eq, (hs.kind m hh).text.2, ← Machine.cyclic?_eq,
        Machine.requested]
    obtain ⟨n, hn, hl⟩ := h.rest.answered m (hback m hm) r (hrequested ▸ hr)
    exact ⟨n, hs.noted _ hn, hlinked n hl⟩
  · obtain ⟨env, henv⟩ := h.bound m (hback m hm)
    have hh := Machine.has_of_isLinked (hback m hm)
    obtain ⟨env', henv', -⟩ := (hs.kind m hh).bound env henv
    exact ⟨env', henv'⟩
  · exact hlinked x ((hs.slated x hx).elim (h.slated x) id)

end ExportGraph

end ModuleGraph

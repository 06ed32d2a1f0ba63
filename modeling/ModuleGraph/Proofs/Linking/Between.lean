import ModuleGraph.Proofs.Live.Invariant

/-! # What happens between two links

Evaluations, dynamic imports and jobs leave modules that are not linked as they are, and linked ones
stay linked. An operation that links, as the end of a dynamic import does, is a link with such
changes before and after it. So the machines that the contract of a link speaks of are all those
that the operations of a host lead to. -/

namespace ModuleGraph

open Relation

variable {σ κ : Type} {journal : σ → Journal} {world : Machine σ κ → Prop}
variable {hosts : Set (Host σ κ)} {rank : Host σ κ → Nat} {host : Host σ κ}
variable {s s' : Machine σ κ} {m x : ModuleId}

namespace Machine

/-! ## Changes that link nothing -/

/-- A change that links nothing. No module is taken away, the world is not left, and what is newly
slated to be evaluated is linked. -/
structure Maintains (journal : σ → Journal) (world : Machine σ κ → Prop) (s s' : Machine σ κ) : Prop
    extends s.Advances journal s' where
  has : ∀ m, s.Has m → s'.Has m
  back : ∀ m, (s'.status m).IsLinked → (s.status m).IsLinked
  world : world s → world s'
  slated : ∀ x, s'.Slated x → s.Slated x ∨ (s.status x).IsLinked

namespace Maintains

theorem composes (journal : σ → Journal) (world : Machine σ κ → Prop) :
    Composes (Machine.Maintains journal world) where
  refl s :=
    { unlinked := fun _ _ _ => rfl
      linked := fun _ h => ⟨h, rfl⟩
      made := fun _ h => isNew_of_not_has h
      noted := ⟨[], (List.append_nil _).symm⟩
      has := fun _ => id
      back := fun _ => id
      world := id
      slated := fun _ => .inl }
  trans {s₁ s₂ s₃} h h' :=
    { unlinked := fun m hm hu => by
        have hkind := h.unlinked m hm hu
        have hu' : s₂.status m = .unlinked := by rw [status, hkind]; exact hu
        exact (h'.unlinked m (h.has m hm) hu').trans hkind
      linked := fun m hm => by
        obtain ⟨hm', hr⟩ := h.linked m hm
        obtain ⟨hm'', hr'⟩ := h'.linked m hm'
        exact ⟨hm'', hr'.trans hr⟩
      made := fun m hm => by
        by_cases hm' : s₂.Has m
        · have hnew := h.made m hm
          rw [h'.unlinked m hm' hnew.isUnlinked.status_eq]
          exact hnew
        · exact h'.made m hm'
      noted := by
        obtain ⟨k, hk⟩ := h.noted
        obtain ⟨k', hk'⟩ := h'.noted
        exact ⟨k ++ k', by rw [hk', hk, List.append_assoc]⟩
      has := fun m hm => h'.has m (h.has m hm)
      back := fun m hm => h.back m (h'.back m hm)
      world := fun hw => h'.world (h.world hw)
      slated := fun x hx => (h'.slated x hx).elim (h.slated x) fun hl => .inr (h.back x hl) }

theorem of_modules (hm : s'.modules = s.modules)
    (hnoted : ∃ k, journal s'.host = journal s.host ++ k)
    (hw : world s → world s')
    (hbodies : ∀ r x, s'.handler? r = some (.bodyEnded x) → s.Slated x ∨ (s.status x).IsLinked) :
    s.Maintains journal world s' := by
  have hmodule : ∀ m, s'.module m = s.module m := fun m => by rw [module, hm, module]
  have hstatus : ∀ m, s'.status m = s.status m := fun m => by rw [status, hmodule, status]
  have hold : ∀ entry ∈ journal s.host, entry ∈ journal s'.host := fun _ he => by
    obtain ⟨k, hk⟩ := hnoted
    rw [hk]
    exact List.mem_append_left _ he
  exact
    { unlinked := fun m _ _ => by rw [hmodule]
      linked := fun m h =>
        ⟨by rwa [hstatus], by rw [requested, cyclic?_eq, hmodule, ← cyclic?_eq, requested]⟩
      made := fun m h => by
        rw [hmodule]
        exact isNew_of_not_has h
      noted := hnoted
      has := fun m h => by rwa [Has, hm]
      back := fun m h => by rwa [← hstatus]
      world := hw
      slated := (Develops.of_modules hm hold hbodies).slated }

theorem of_aside {track : Tracker σ} (ht : ∀ p e h, journal (track p e h) = journal h)
    (ha : s.Aside track s') (hr : s'.reactions = s.reactions) (hw : world s → world s') :
    s.Maintains journal world s' := by
  have hjournal := ha.journal_eq ht
  refine .of_modules ha.1 ⟨[], by rw [hjournal, List.append_nil]⟩ hw fun r x hb =>
    .inl (.body (r := r) ?_)
  rwa [handler?, reaction?, hr] at hb

theorem updateModule {f : Module → Module}
    (hunlinked : ¬(s.status m).IsLinked → (f (s.module m)).kind = (s.module m).kind)
    (hlinked : (s.status m).IsLinked → (f (s.module m)).kind.status.IsLinked)
    (hf : ∀ x : Module, x.kind.SameText (f x).kind)
    (hslated : ∀ x, (s.updateModule m f).Slated x → s.Slated x ∨ (s.status x).IsLinked)
    (hw : world s → world (s.updateModule m f)) :
    s.Maintains journal world (s.updateModule m f) := by
  by_cases hm : s.Has m
  swap
  · rw [updateModule_of_not_has f hm]
    exact (composes journal world).refl s
  have hother : ∀ n, n ≠ m → (s.updateModule m f).module n = s.module n := fun n hn =>
    module_updateModule_of_ne s f (Ne.symm hn)
  have hself : (s.updateModule m f).module m = f (s.module m) := module_updateModule_self s f hm
  have hkept : ∀ n, ¬(s.status n).IsLinked →
      ((s.updateModule m f).module n).kind = (s.module n).kind := fun n hn => by
    by_cases e : n = m
    · rw [e, hself, hunlinked (e ▸ hn)]
    · rw [hother n e]
  refine ⟨⟨fun n _ hu => hkept n ?unlinked, fun n hn => ⟨?status, ?requested⟩, fun n hn => ?made,
    [], (List.append_nil _).symm⟩, fun n => (has_updateModule f).2, fun n hn => ?back, hw, hslated⟩
  case unlinked =>
    rw [hu]
    exact id
  case status =>
    by_cases e : n = m
    · subst e
      rw [status, hself]
      exact hlinked hn
    · rwa [status, hother n e]
  case requested =>
    by_cases e : n = m
    · subst e
      have hrequested := (hf (s.module n)).2
      simp only [requested, cyclic?_eq, hself]
      revert hrequested
      cases (f (s.module n)).kind.cyclic? <;> cases (s.module n).kind.cyclic? <;> simp
    · rw [requested, cyclic?_eq, hother n e, ← cyclic?_eq, requested]
  case made =>
    rw [hother n fun e => hn (e ▸ hm)]
    exact isNew_of_not_has hn
  case back =>
    by_contra hl
    rw [status, hkept n hl] at hn
    exact hl hn

end Maintains

/-- What a hook does: it neither links nor slates modules. It may run in the midst of a link, which
takes back what it has linked if it fails. -/
structure Minor (journal : σ → Journal) (world : Machine σ κ → Prop) (s s' : Machine σ κ) : Prop
    extends s.Maintains journal world s' where
  unslated : ∀ x, s'.Slated x → s.Slated x

end Machine

/-- A host whose hooks make minor changes. In its world a request that was answered keeps its
answer, and neither what happens to promises nor updates of modules that leave their texts lead out
of it. -/
structure Reliable (journal : σ → Journal) (world : Machine σ κ → Prop) (host : Host σ κ) :
    Prop where
  stable : ∀ {s}, world s → (journal s.host).Stable
  conduct : LinkConduct journal host
  chores : Chores host (Machine.Minor journal world)
  requested : ∀ referrer specifier ticket,
    Along (Machine.Minor journal world) (host.importRequested referrer specifier ticket)
  found : ∀ {referrer specifier s m s'},
    host.resolve referrer specifier s = some (.ok m, s') → s'.Has m
  tracked : ∀ p e h, journal (host.track p e h) = journal h
  aside : ∀ {s s'}, s.Aside host.track s' → world s → world s'
  update : ∀ s m {f}, (∀ x : Module, x.kind.SameText (f x).kind) → world s →
    world (s.updateModule m f)

namespace Machine

/-! ## Machines between two links -/

/-- A machine between two links. Whatever is slated to be evaluated is linked. -/
structure BetweenLinks (journal : σ → Journal) (world : Machine σ κ → Prop) (s : Machine σ κ) :
    Prop where
  rest : s.AtRest journal
  world : world s
  slated : ∀ x, s.Slated x → (s.status x).IsLinked

/-- Modules were made, and nothing else has happened yet. -/
theorem betweenLinks_of_isNew (hnew : ∀ m, (s.module m).kind.IsNew) (hr : s.reactions = #[])
    (hw : world s) : s.BetweenLinks journal world where
  rest := (atRest_initial s.host).advance (advances_of_isNew hnew)
  world := hw
  slated x hx := by
    have hleads : ∀ m, (s.cyclic m).root = none ∧ (s.cyclic m).parents = [] := fun m => by
      rw [cyclic, cyclic?_eq]
      exact (hnew m).leads
    cases hx with
    | @root m hx =>
      rw [(hleads m).1] at hx
      cases hx
    | @parent m hx =>
      rw [(hleads m).2] at hx
      cases hx
    | body hx =>
      rw [handler?, reaction?, hr] at hx
      cases hx

structure Continues (journal : σ → Journal) (world : Machine σ κ → Prop) (s s' : Machine σ κ) :
    Prop where
  between : s'.BetweenLinks journal world
  has : ∀ m, s.Has m → s'.Has m
  linked : ∀ m, (s.status m).IsLinked → (s'.status m).IsLinked ∧ s'.requested m = s.requested m

theorem Continues.trans {s₁ s₂ s₃ : Machine σ κ} (h : s₁.Continues journal world s₂)
    (h' : s₂.Continues journal world s₃) : s₁.Continues journal world s₃ where
  between := h'.between
  has m hm := h'.has m (h.has m hm)
  linked m hm := by
    obtain ⟨hm', e⟩ := h.linked m hm
    obtain ⟨hm'', e'⟩ := h'.linked m hm'
    exact ⟨hm'', e'.trans e⟩

theorem Maintains.continues (h : s.Maintains journal world s')
    (hs : s.BetweenLinks journal world) : s.Continues journal world s' where
  between :=
    { rest := hs.rest.advance h.toAdvances
      world := h.world hs.world
      slated := fun x hx => (h.linked x ((h.slated x hx).elim (hs.slated x) id)).1 }
  has := h.has
  linked := h.linked

structure LinkSpares (world : Machine σ κ → Prop) (s s' : Machine σ κ) : Prop where
  has : ∀ m, s.Has m → s'.Has m
  world : world s → world s'
  unslated : ∀ x, s'.Slated x → s.Slated x

theorem LinkSpares.composes (world : Machine σ κ → Prop) :
    Composes (Machine.LinkSpares world) where
  refl _ := ⟨fun _ => id, id, fun _ => id⟩
  trans h h' := ⟨fun m hm => h'.has m (h.has m hm), fun hw => h'.world (h.world hw),
    fun x hx => h.unslated x (h'.unslated x hx)⟩

theorem linkSpares_relink (h : Reliable journal world host) (s : Machine σ κ) (m : ModuleId)
    {f : ModuleKind → ModuleKind} (hf : ∀ k : ModuleKind, k.SameLeads (f k)) :
    s.LinkSpares world (s.updateKind m f) where
  has _ := (has_updateKind f).2
  world := h.update s m fun x => (hf x.kind).sameText
  unslated _ := .of_updateModule (hf _).leads

theorem link_spares (h : Reliable journal world host) (m : ModuleId) :
    Along (Machine.LinkSpares world) (host.link m) := by
  have hchores : Chores host (Machine.LinkSpares world) :=
    h.chores.mono fun hs => ⟨hs.has, hs.world, hs.unslated⟩
  have hlooks : LooksUp host (Machine.LinkSpares world) :=
    { toComposes := LinkSpares.composes world
      resolve := fun m request => hchores.resolve (.module m) request
      exportedNames := hchores.exportedNames
      resolveExport := hchores.resolveExport
      keep := fun s m keys => ⟨fun n => (has_updateModule _).2,
        h.update s m fun _ => ⟨rfl, rfl⟩, fun _ => .of_updateModule rfl⟩ }
  have hspans : SpansLink host (Machine.LinkSpares world) :=
    { toAsks := hlooks.asks
      keys := hlooks.namespaceKeys
      leaf := hchores.linkLeaf
      foreign := hchores.initializeForeign
      instantiate := hchores.instantiateForeign
      prepare := hchores.prepare
      relink := fun s m _ => linkSpares_relink h s m }
  exact hspans.link m

theorem BetweenLinks.link (h : s.BetweenLinks journal world)
    (hr : Reliable journal world host) (hm : s.Has m) {result : Except LinkError Unit}
    (hrun : host.link m s = some (result, s')) : s.Continues journal world s' := by
  obtain ⟨hin, -⟩ := link_ends hr.conduct h.rest hm hrun
  have hspares := link_spares hr m _ _ _ hrun
  have hlinked : ∀ x, (s.status x).IsLinked →
      (s'.status x).IsLinked ∧ s'.requested x = s.requested x := fun x hx => by
    have hkind := hin.kept x hx
    exact ⟨by rwa [status, hkind],
      by rw [requested, cyclic?_eq, hkind, ← cyclic?_eq, requested]⟩
  exact ⟨⟨hin.atRest, hspares.world h.world,
    fun x hx => (hlinked x (h.slated x (hspares.unslated x hx))).1⟩, hspares.has, hlinked⟩

/-! ## Intervals -/

/-- A change that links nothing, or a link. -/
inductive Interval (journal : σ → Journal) (world : Machine σ κ → Prop) (hosts : Set (Host σ κ))
    (s s' : Machine σ κ) : Prop
  | maintains : s.Maintains journal world s' → Interval journal world hosts s s'
  | link {host : Host σ κ} {m : ModuleId} {result : Except LinkError Unit} : host ∈ hosts →
      s.Has m → host.link m s = some (result, s') → Interval journal world hosts s s'

abbrev Intervals (journal : σ → Journal) (world : Machine σ κ → Prop) (hosts : Set (Host σ κ)) :
    Machine σ κ → Machine σ κ → Prop := ReflTransGen (Interval journal world hosts)

/-- Where no host may link, nothing is linked. -/
theorem Intervals.maintains (h : Intervals journal world (∅ : Set (Host σ κ)) s s') :
    s.Maintains journal world s' := by
  have hc := Maintains.composes (κ := κ) journal world
  induction h with
  | refl => exact hc.refl s
  | tail _ hstep ih =>
    cases hstep with
    | maintains hs => exact hc.trans ih hs
    | link hhost => exact hhost.elim

theorem Intervals.continues (hr : ∀ host ∈ hosts, Reliable journal world host)
    (h : Intervals journal world hosts s s') (hs : s.BetweenLinks journal world) :
    s.Continues journal world s' := by
  induction h with
  | refl => exact ⟨hs, fun _ => id, fun _ hx => ⟨hx, rfl⟩⟩
  | tail _ hstep ih =>
    refine ih.trans ?_
    cases hstep with
    | maintains hs => exact hs.continues ih.between
    | link hhost hm hrun => exact ih.between.link (hr _ hhost) hm hrun

/-- The terms of operations between two links: only linked modules are touched, and what they
request. -/
def betweenLinks (journal : σ → Journal) (world : Machine σ κ → Prop) (hosts : Set (Host σ κ)) :
    Terms σ κ where
  known := BetweenLinks journal world
  may s
    | .promise _ => True
    | .module m => (s.status m).IsLinked
    | .request m request => (s.status m).IsLinked ∧ request ∈ s.requested m
    | .found m => s.Has m
  change s s' := s.BetweenLinks journal world → Intervals journal world hosts s s'

end Machine

open Machine

namespace Reliable

variable (h : Reliable journal world host)
include h

theorem looksUp : LooksUp host (Machine.Maintains journal world) where
  toComposes := Maintains.composes journal world
  resolve m request _ _ _ hrun := (h.chores.resolve (.module m) request _ _ _ hrun).toMaintains
  exportedNames m _ _ _ hrun := (h.chores.exportedNames m _ _ _ hrun).toMaintains
  resolveExport m name visited _ _ _ hrun :=
    (h.chores.resolveExport m name visited _ _ _ hrun).toMaintains
  keep s m _ := .updateModule (fun _ => rfl) id (fun _ => ⟨rfl, rfl⟩)
    (fun _ hx => .inl (.of_updateModule rfl hx)) (h.update s m fun _ => ⟨rfl, rfl⟩)

theorem maintains_aside (ha : s.Aside host.track s') (hr : s'.reactions = s.reactions) :
    s.Maintains journal world s' :=
  .of_aside h.tracked ha hr (h.aside ha)

theorem maintains_attach (s : Machine σ κ) (p : PromiseId) {reaction : Reaction κ}
    (hbody : ∀ x, reaction.handler = .bodyEnded x → (s.status x).IsLinked) :
    s.Maintains journal world (s.attach host.track p reaction) := by
  have hattached := attached h.tracked s p reaction
  refine .of_modules hattached.modules ⟨[], by rw [hattached.journal, List.append_nil]⟩
    (h.aside (s.aside_attach p reaction)) fun r x hr => ?_
  obtain ⟨-, e⟩ | ⟨-, hr⟩ := hattached.cases hr
  · exact .inr (hbody x e.symm)
  · exact .inl (.body hr)

theorem maintains_updateCyclic {f : Cyclic → Cyclic} (hm : (s.status m).IsLinked)
    (hf : ∀ c, (betweenLinks journal world hosts).Allows s c (f c)) :
    s.Maintains journal world (s.updateCyclic m f) := by
  have htext : ∀ x : Module, x.kind.SameText (x.kind.updateCyclic f) := fun x =>
    ModuleKind.sameText_updateCyclic (fun c => (hf c).requested) x.kind
  exact .updateModule (fun hl => (hl hm).elim)
    (fun hm => ModuleKind.isLinked_updateCyclic hm fun c => (hf c).status) htext
    (fun _ => Slated.of_updateCyclic (fun c => (hf c).root) fun c => (hf c).parents)
    (h.update s m htext)

/-- What a linked module requests is answered with a linked module. -/
theorem answers_linked (hs : s.BetweenLinks journal world) (hm : (s.status m).IsLinked)
    {request : String} (hr : request ∈ s.requested m) {n : ModuleId}
    (hrun : host.resolve (.module m) request s = some (.ok n, s')) : (s'.status n).IsLinked := by
  obtain ⟨n', hn', hlinked⟩ := hs.rest.answered m hm request hr
  have hminor := h.chores.resolve (.module m) request _ _ _ hrun
  have hnoted : Entry.resolved m request n' ∈ journal s'.host := by
    obtain ⟨k, hk⟩ := hminor.noted
    rw [hk]
    exact List.mem_append_left _ hn'
  have hstable := h.stable (hminor.world hs.world)
  rw [hstable m request n n' (h.conduct.answers hrun).1 hnoted]
  exact (hminor.linked n' hlinked).1

theorem carries (hr : ∀ host ∈ hosts, Reliable journal world host) :
    Carries host (betweenLinks journal world hosts) where
  refl _ _ := .refl
  trans h₁ h₂ hs := (h₁ hs).trans (h₂ ((h₁ hs).continues hr hs).between)
  chores := h.chores.mono fun hs _ => .single (.maintains hs.toMaintains)
  assume hc hs := hc hs hs
  stays hs hc := by
    have hcontinues := (hc hs).continues hr hs
    refine ⟨hcontinues.between, fun x hx => ?_⟩
    cases x with
    | promise p => trivial
    | module m => exact (hcontinues.linked m hx).1
    | request m request =>
      obtain ⟨hm, e⟩ := hcontinues.linked m hx.1
      exact ⟨hm, e ▸ hx.2⟩
    | found m => exact hcontinues.has m hx
  fresh _ _ := trivial
  answer _ _ := trivial
  leafAnswer _ _ := trivial
  root {s m} hs hm := by
    cases hroot : s.cycleRoot? m with
    | none => rwa [cycleRoot, hroot]
    | some x =>
      rw [cycleRoot, hroot]
      exact hs.slated x (Slated.of_cycleRoot? hroot)
  parent hs hx := hs.slated _ (.parent hx)
  linked _ hm := isLinked_of_refusal? hm
  asked _ hm request hr := ⟨hm, hr⟩
  answered hs hm hrun := h.answers_linked hs hm.1 hm.2 hrun
  keys m _ _ _ hrun _ := .single (.maintains (h.looksUp.namespaceKeys m _ _ _ hrun))
  incidental hi _ := .single (.maintains
    (h.maintains_aside (.of_eq hi.modules hi.host) hi.reactions))
  newPromise s _ _ _ := .single (.maintains (h.maintains_aside (.of_eq rfl rfl) rfl))
  settle s c result _ _ := .single (.maintains (h.maintains_aside (s.aside_settle c result)
    (settle_settles s h.tracked c result).reactions))
  attach s p reaction hh _ _ _ := .single (.maintains (h.maintains_attach s p fun x e => by
    rw [e] at hh
    exact hh))
  markHandled s p _ := .single (.maintains (h.maintains_aside (s.aside_markHandled p)
    (Unmoved.markHandled h.tracked s p).reactions))
  openImport s _ _ _ := .single (.maintains (h.maintains_aside (.of_eq rfl rfl) rfl))
  cyclic s m f hm hf _ := .single (.maintains (h.maintains_updateCyclic hm hf))
  leaf s m p f hm _ hleaf hother _ := by
    have htext := fun x : Module => ModuleKind.sameText_answered hleaf hother x.kind
    exact .single (.maintains (.updateModule (fun hl => (hl hm).elim)
      (ModuleKind.isLinked_answered hleaf hother) htext
      (fun x hx => .inl (.of_updateModule (by rw [ModuleKind.cyclic?_answered hleaf hother]) hx))
      (h.update s m htext)))
  update s m f hf _ := by
    have htext : ∀ x : Module, x.kind.SameText (f x).kind := fun x => by
      rw [(hf x).1]
      exact ⟨rfl, rfl⟩
    exact .single (.maintains (.updateModule (fun _ => (hf _).1)
      (fun hm => by rw [(hf _).1]; exact hm) htext
      (fun x hx => .inl (.of_updateModule (by rw [(hf _).1]) hx)) (h.update s m htext)))

/-- An evaluation links nothing. -/
theorem evaluate_advances (hs : s.BetweenLinks journal world) {p : PromiseId}
    (hrun : host.evaluate m s = some (p, s')) : s.Advances journal s' := by
  have hcarries : Carries host (betweenLinks journal world ∅) := h.carries nofun
  exact (hcarries.evaluate m _ _ _ hrun hs).maintains.toAdvances

/-- The start of a dynamic import links nothing. -/
theorem importCall_advances (hs : s.BetweenLinks journal world) {referrer : Referrer}
    {specifier : Value} {p : PromiseId}
    (hrun : host.importCall referrer specifier s = some (p, s')) : s.Advances journal s' := by
  have hcarries : Carries host (betweenLinks journal world ∅) := h.carries nofun
  have hrequested : ∀ text ticket, Along (betweenLinks journal world ∅).change
      (host.importRequested referrer text ticket) := fun text ticket _ _ _ htold _ =>
    .single (.maintains (h.requested referrer text ticket _ _ _ htold).toMaintains)
  exact (hcarries.importCall hrequested specifier _ _ _ hrun hs).maintains.toAdvances

end Reliable

/-! ## Operations -/

namespace Machine

/-- One operation, or something that the code of a host does. -/
inductive Proceeding (journal : σ → Journal) (world : Machine σ κ → Prop) (hosts : Set (Host σ κ))
    (s s' : Machine σ κ) : Prop
  | minor : s.Minor journal world s' → Proceeding journal world hosts s s'
  | link {host : Host σ κ} {m : ModuleId} {result : Except LinkError Unit} : host ∈ hosts →
      s.Has m → host.link m s = some (result, s') → Proceeding journal world hosts s s'
  | evaluate {host : Host σ κ} {m : ModuleId} {p : PromiseId} : host ∈ hosts →
      host.evaluate m s = some (p, s') → Proceeding journal world hosts s s'
  | importCall {host : Host σ κ} {referrer : Referrer} {specifier : Value} {p : PromiseId} :
      host ∈ hosts → host.importCall referrer specifier s = some (p, s') →
        Proceeding journal world hosts s s'
  | finishImport {host : Host σ κ} {ticket : TicketId} {found : Except Value ModuleId} :
      host ∈ hosts → (∀ m, found = .ok m → s.Has m) →
        host.finishImport ticket found s = some ((), s') → Proceeding journal world hosts s s'
  | importMeta {host : Host σ κ} {m : ModuleId} {o : ObjectId} : host ∈ hosts →
      host.importMeta m s = some (o, s') → Proceeding journal world hosts s s'
  | namespaceOf {host : Host σ κ} {m : ModuleId} {result : Except Value Value} : host ∈ hosts →
      host.namespaceOf m s = some (result, s') → Proceeding journal world hosts s s'
  | job {host : Host σ κ} {result : Except Value Bool} : host ∈ hosts →
      runNextJob host s = some (result, s') → Proceeding journal world hosts s s'

abbrev Proceedings (journal : σ → Journal) (world : Machine σ κ → Prop) (hosts : Set (Host σ κ)) :
    Machine σ κ → Machine σ κ → Prop := ReflTransGen (Proceeding journal world hosts)

end Machine

/-- How hosts conduct themselves between two links. A callback does any proceedings, by hosts of
smaller rank: a host that calls itself is the limit of such ones, and a run of it that ends is a run
of one of them. -/
structure Conforms (journal : σ → Journal) (world : Machine σ κ → Prop) (hosts : Set (Host σ κ))
    (rank : Host σ κ → Nat) : Prop where
  reliable : ∀ host ∈ hosts, Reliable journal world host
  call : ∀ host ∈ hosts, ∀ code x, Within (Machine.Proceedings journal world
    {below | below ∈ hosts ∧ rank below < rank host}) (host.call code x)

namespace Machine

theorem Proceedings.intervals {hosts' : Set (Host σ κ)}
    (hc : ∀ host ∈ hosts', CarriesJobs host (betweenLinks journal world hosts))
    (hr : ∀ host ∈ hosts, Reliable journal world host)
    (h : Proceedings journal world hosts' s s') (hs : s.BetweenLinks journal world) :
    Intervals journal world hosts s s' := by
  induction h with
  | refl => exact .refl
  | @tail s₁ s₂ _ hstep ih =>
    have h₁ := (ih.continues hr hs).between
    refine ih.trans ?_
    cases hstep with
    | minor hs => exact .single (.maintains hs.toMaintains)
    | link hhost hm hrun => exact (hc _ hhost).link hm hrun h₁
    | evaluate hhost hrun => exact (hc _ hhost).evaluate _ _ _ _ hrun h₁
    | importCall hhost hrun =>
      exact (hc _ hhost).importCall ((hc _ hhost).requested _) _ _ _ _ hrun h₁
    | finishImport hhost hfound hrun => exact (hc _ hhost).finishImport hfound hrun h₁
    | importMeta hhost hrun => exact (hc _ hhost).importMeta _ _ _ _ hrun h₁
    | namespaceOf hhost hrun => exact (hc _ hhost).namespaceOf _ _ _ _ hrun h₁
    | job hhost hrun => exact (hc _ hhost).runNextJob _ _ _ hrun h₁

end Machine

namespace Conforms

variable (h : Conforms journal world hosts rank)
include h

/-- The induction is on the rank of the host. -/
theorem carriesJobs (hhost : host ∈ hosts) :
    CarriesJobs host (betweenLinks journal world hosts) := by
  induction hrank : rank host using Nat.strong_induction_on generalizing host with
  | _ n ih =>
    subst hrank
    have hreliable := h.reliable host hhost
    exact
      { toCarries := hreliable.carries h.reliable
        promise := fun _ _ => trivial
        body := fun hs hb => hs.slated _ (.body hb)
        finds := hreliable.found
        link := fun hm hrun _ => .single (.link hhost hm hrun)
        call := fun code x _ _ _ hrun hs =>
          (h.call host hhost code x _ _ _ hrun).intervals (fun _ hb => ih _ hb.2 hb.1 rfl)
            h.reliable hs
        requested := fun referrer text ticket _ _ _ htold _ =>
          .single (.maintains (hreliable.requested referrer text ticket _ _ _ htold).toMaintains)
        follow := fun s _ followed _ =>
          .single (.maintains (hreliable.maintains_attach s followed nofun))
        beside := fun hm hh hhandlers _ => .single (.maintains
          (.of_modules hm ⟨[], by rw [hh, List.append_nil]⟩ (hreliable.aside (.of_eq hm hh))
            fun r x hb => .inl (.body (hhandlers r _ hb)))) }

theorem intervals (hs : s.Proceedings journal world hosts s')
    (hbetween : s.BetweenLinks journal world) : Intervals journal world hosts s s' :=
  hs.intervals (fun _ => h.carriesJobs) h.reliable hbetween

/-- All machines that operations lead to are machines between two links. -/
theorem linkReachable (h₀ : LinkReachable journal hosts s) (hbetween : s.BetweenLinks journal world)
    (hs : s.Proceedings journal world hosts s') : LinkReachable journal hosts s' := by
  have hintervals := h.intervals hs hbetween
  clear hs
  induction hintervals with
  | refl => exact h₀
  | tail _ hstep ih =>
    cases hstep with
    | maintains hs => exact ih.advance hs.toAdvances
    | link hhost hm hrun => exact ih.link hhost hm hrun

end Conforms

/-- In a graph, too, whose modules are all that are ever made. -/
theorem Conforms.reachable {G : ExportGraph} (h : Conforms journal world {host} rank)
    (hall : ∀ {s m}, world s → s.Has m → m ∈ G.modules) (h₀ : G.Reachable journal world host s)
    (hbetween : s.BetweenLinks journal world) (hs : s.Proceedings journal world {host} s') :
    G.Reachable journal world host s' := by
  have hintervals := h.intervals hs hbetween
  clear hs
  induction hintervals with
  | refl => exact h₀
  | tail hs₁ hstep ih =>
    cases hstep with
    | maintains hs => exact ih.advance hs.toAdvances
    | link hhost hm hrun =>
      cases hhost
      have hw := (Intervals.continues h.reliable hs₁ hbetween).between.world
      exact ih.link hw (hall hw hm) hm hrun

/-! ## The host of a plan -/

namespace Plan

variable {plan : Plan} {base s s' : Machine Journal ModuleId} {names : ModuleId → List String}

theorem minor_beside (hm : s'.modules = s.modules) (hr : s'.reactions = s.reactions)
    (hj : ∃ k, s'.host = s.host ++ k) (hw : plan.Shows base s → plan.Shows base s') :
    s.Minor id (plan.Shows base) s' := by
  have hbody : ∀ r x, s'.handler? r = some (.bodyEnded x) → s.handler? r = some (.bodyEnded x) :=
    fun r x h => by rwa [Machine.handler?, Machine.reaction?, hr] at h
  have hcyclic : ∀ m, s'.cyclic m = s.cyclic m := fun m => by
    simp only [Machine.cyclic, Machine.cyclic?_eq, Machine.module, hm]
  refine ⟨.of_modules hm hj hw fun r x h => .inl (.body (hbody r x h)), fun x hx => ?_⟩
  exact hx.of_cyclic (fun m => by rw [hcyclic]) (fun m => by rw [hcyclic])
    fun r x h => ⟨r, hbody r x h⟩

theorem exporting_minor (plan : Plan) (base : Machine Journal ModuleId)
    (names : ModuleId → List String) (depth : Nat) :
    Hooks (plan.exporting names depth) (Machine.Minor id (plan.Shows base)) := by
  refine exporting_within ?composes (fun he s r s' hrun => ?note) plan names depth
    (fun m request s r s' hrun => ?answer) fun hm hr hh => ?beside
  case composes =>
    have hc := Machine.Maintains.composes id (plan.Shows base)
    exact ⟨fun s => ⟨hc.refl s, fun _ => id⟩, fun h h' => ⟨hc.trans h.toMaintains h'.toMaintains,
      fun x hx => h.unslated x (h'.unslated x hx)⟩⟩
  case note =>
    have hspares : Machine.SparesKeys (plan.Shows base) s s' := spares_note he s r s' hrun
    cases hrun
    exact minor_beside rfl rfl ⟨_, rfl⟩ fun hw => (hspares.1 hw).1
  case answer =>
    obtain ⟨hm, hr⟩ := answer_beside hrun
    obtain ⟨k, -, hk⟩ := (plan.within_answer m request s r s' hrun).noted
    exact minor_beside hm hr ⟨k, hk⟩ fun hw => (plan.stays_answer base m request s r s' hrun hw).1
  case beside =>
    exact minor_beside hm hr ⟨[], by rw [hh, List.append_nil]⟩ fun hw =>
      ((spares_beside hm hh).1 hw).1

/-- A host that follows a plan conducts itself so, in the world that the plan shows. -/
theorem exporting_conforms (plan : Plan) (base : Machine Journal ModuleId)
    (names : ModuleId → List String) (depth : Nat) :
    Conforms id (plan.Shows base) {plan.exporting names depth} fun _ => 0 where
  reliable host hhost := by
    cases hhost
    have hattends := plan.attends names base depth
    have hminor := plan.exporting_minor base names depth
    exact
      { stable := fun hw _ _ _ _ hn hn' => Option.some.inj ((hw.noted hn).symm.trans (hw.noted hn'))
        conduct := plan.exporting_linkConduct names depth
        chores := hminor.chores
        requested := hminor.importRequested
        found := exporting_found
        tracked := fun _ _ _ => rfl
        aside := fun ha hw => (hattends.aside ha hw).1
        update := fun s m _ hf hw => (plan.stays_updateModule base s m hf hw).1 }
  call host hhost code x := by
    cases hhost
    exact Within.ofExcept (.reflTransGen _) x.toExcept

/-- Once the modules are made, all that such a host does leads to machines between two links. -/
theorem exporting_linkReachable {depth : Nat} (hnew : ∀ m, (base.module m).kind.IsNew)
    (hreactions : base.reactions = #[]) (hhost : base.host = [])
    (hs : base.Proceedings id (plan.Shows base) {plan.exporting names depth} s) :
    LinkReachable id {plan.exporting names depth} s := by
  have hbase : LinkReachable id {plan.exporting names depth} base :=
    (LinkReachable.initial base.host).advance (advances_of_isNew hnew)
  have hbetween : base.BetweenLinks id (plan.Shows base) :=
    betweenLinks_of_isNew hnew hreactions (plan.shows_self hhost)
  exact (plan.exporting_conforms base names depth).linkReachable hbase hbetween hs

end Plan

end ModuleGraph

import ModuleGraph.Proofs.Live.Linking

/-! # Operations keep bindings live

Evaluations, dynamic imports and jobs settle promises, change the cyclic fields of linked modules,
and call the host, which may link more modules. None of this unlinks a module or makes an
environment anew. So the machine is live wherever a run comes to. -/

namespace ModuleGraph

open Relation

variable {σ κ : Type} {journal : σ → Journal} {world : Machine σ κ → Prop} {host : Host σ κ}
variable {s s' s₀ : Machine σ κ} {m x : ModuleId}

theorem ModuleKind.develops_updateCyclic {k : ModuleKind} {f : Cyclic → Cyclic}
    (hlinked : k.status.IsLinked) (hrequested : ∀ c, (f c).requested = c.requested)
    (hstatus : ∀ c, (f c).status = c.status ∨ (f c).status.IsLinked) :
    k.Develops (k.updateCyclic f) where
  text := sameText_updateCyclic hrequested k
  linked h := isLinked_updateCyclic h hstatus
  unlinked h := by
    rw [h.status_eq] at hlinked
    exact hlinked.elim
  bound env henv := ⟨env, (environment?_updateCyclic f k).trans henv, .refl⟩
  blank h := (environment?_updateCyclic f k).trans h

/-- What happens between two states: something at one moment, which may be in the midst of an
operation while bodies run, or a whole operation. Links are among the former. -/
inductive Machine.Episode (journal : σ → Journal) (world : Machine σ κ → Prop) (host : Host σ κ)
    (s s' : Machine σ κ) : Prop
  | errand : s.Errand journal world host s' → Episode journal world host s s'
  | evaluate {m : ModuleId} {p : PromiseId} :
      host.evaluate m s = some (p, s') → Episode journal world host s s'
  | importCall {referrer : Referrer} {specifier : Value} {p : PromiseId} :
      host.importCall referrer specifier s = some (p, s') → Episode journal world host s s'
  | finishImport {ticket : TicketId} {found : Except Value ModuleId} :
      (∀ m, found = .ok m → s.Has m) → host.finishImport ticket found s = some ((), s') →
        Episode journal world host s s'
  | importMeta {m : ModuleId} {o : ObjectId} :
      host.importMeta m s = some (o, s') → Episode journal world host s s'
  | job {r : Except Value Bool} :
      runNextJob host s = some (r, s') → Episode journal world host s s'
  | jobs {r : Except Value Unit} :
      host.runJobs s = some (r, s') → Episode journal world host s s'

namespace ExportGraph

variable {G : ExportGraph}

def liveTerms (G : ExportGraph) (journal : σ → Journal) (world : Machine σ κ → Prop) :
    Terms σ κ where
  known := G.Live journal world
  may s
    | .promise _ => True
    | .module m => (s.status m).IsLinked
    | .request m request => (s.status m).IsLinked ∧
        ∃ record, G.source m = some record ∧ request ∈ record.requested
    | .found m => s.Has m
  change := G.StaysLive journal world

namespace Animates

variable (h : G.Animates journal world host)
include h

theorem requested_eq {record : SourceRecord} (hw : world s) (hm : s.Has m)
    (hs : G.source m = some record) : s.requested m = record.requested := by
  have hrequested := h.requested hw (h.all hw hm) hm
  rw [hs, Option.map_some] at hrequested
  rw [Machine.requested, hrequested]
  rfl

theorem isCyclic (hparsed : G.Parsed) (hw : world s) (m : ModuleId) :
    (s.module m).kind.cyclic?.isSome := by
  have hrecord : ∃ record, (s.module m).kind.record? = some record := by
    by_cases hm : s.Has m
    · obtain ⟨record, -, hrecord⟩ := h.has_record hparsed hw hm
      exact ⟨record, hrecord⟩
    · rw [Machine.module_of_not_has hm]
      exact ⟨default, rfl⟩
  obtain ⟨record, hrecord⟩ := hrecord
  cases hk : (s.module m).kind with
  | source r e c => rfl
  | foreign i c => rfl
  | leaf state =>
    rw [hk] at hrecord
    cases hrecord

theorem stays_aside (ha : s.Aside host.track s')
    (hbodies : G.Live journal world s → ∀ r x, s'.handler? r = some (.bodyEnded x) →
      s.Slated x ∨ (s.status x).IsLinked) : G.StaysLive journal world s s' := by
  intro hlive
  have hjournal := ha.journal_eq h.tracked
  have hs : s.Develops journal s' :=
    .of_modules ha.1 (fun _ he => hjournal.symm ▸ he) (hbodies hlive)
  exact hlive.develops hs (h.aside ha hlive.here).1
    (hlive.kept.of_exports fun m => by rw [Machine.module, ha.1, Machine.module])

theorem stays_of_reactions (ha : s.Aside host.track s') (hr : s'.reactions = s.reactions) :
    G.StaysLive journal world s s' :=
  h.stays_aside ha fun _ r _ hb => .inl (.body (r := r) (by
    rwa [Machine.handler?, Machine.reaction?, hr] at hb))

theorem stays_settle (s : Machine σ κ) (c : Capability) (result : Except Value Value) :
    G.StaysLive journal world s (s.settle host.track c result) :=
  h.stays_of_reactions (s.aside_settle c result)
    (Machine.settle_settles s h.tracked c result).reactions

theorem stays_attach (s : Machine σ κ) (p : PromiseId) {reaction : Reaction κ}
    (hbody : ∀ x, reaction.handler = .bodyEnded x → (s.status x).IsLinked) :
    G.StaysLive journal world s (s.attach host.track p reaction) := by
  refine h.stays_aside (s.aside_attach p reaction) fun _ r x hr => ?_
  rcases (Machine.attached h.tracked s p reaction).cases hr with ⟨-, e⟩ | ⟨-, hr⟩
  · exact .inr (hbody x e.symm)
  · exact .inl (.body hr)

theorem stays_markHandled (s : Machine σ κ) (p : PromiseId) :
    G.StaysLive journal world s (s.markHandled host.track p) :=
  h.stays_of_reactions (s.aside_markHandled p) (Machine.Unmoved.markHandled h.tracked s p).reactions

theorem stays_updateCyclic {f : Cyclic → Cyclic} (hm : (s.status m).IsLinked)
    (hf : ∀ c, (G.liveTerms journal world).Allows s c (f c)) :
    G.StaysLive journal world s (s.updateCyclic m f) := by
  intro hlive
  have hrequested : ∀ c, (f c).requested = c.requested := fun c => (hf c).requested
  have hs : s.Develops journal (s.updateCyclic m f) := by
    refine .updateModule s m (fun _ => ?_) fun x hx => ?_
    · exact ModuleKind.develops_updateCyclic hm hrequested fun c => (hf c).status
    · exact Machine.Slated.of_updateCyclic (fun c => (hf c).root) (fun c => (hf c).parents) hx
  refine hlive.develops hs ?_ (hlive.kept.updateKind _)
  exact h.here_updateKind hlive.here fun k => ModuleKind.sameText_updateCyclic hrequested k

/-- Something of a module is updated that is neither its kind nor the keys of its namespace. -/
theorem stays_updateModule {f : Module → Module} (hk : (f (s.module m)).kind = (s.module m).kind)
    (hf : ∀ x : Module, x.kind.SameText (f x).kind)
    (he : ∀ x, (f x).exports = x.exports) : G.StaysLive journal world s (s.updateModule m f) := by
  intro hlive
  have hs : s.Develops journal (s.updateModule m f) := by
    refine .updateModule s m (fun _ => ?_) fun x hx => .inl ?_
    · rw [hk]
      exact .refl _
    · exact Machine.Slated.of_updateModule (by rw [hk]) hx
  refine hlive.develops hs (h.text s m hf hlive.here).1 (hlive.kept.of_exports fun n => ?_)
  by_cases hm : s.Has m
  · rw [Machine.module_updateModule s m n f hm]
    split
    · exact he _
    · rfl
  · rw [Machine.updateModule_of_not_has f hm]

section Operations

variable (hparsed : G.Parsed) (hdepth : G.bound < host.depth)
include hparsed hdepth

theorem errands (hs : ReflTransGen (Machine.Errand journal world host) s s') :
    G.StaysLive journal world s s' := by
  have hc := StaysLive.composes G journal world
  induction hs with
  | refl => exact hc.refl s
  | tail _ hs ih => exact hc.trans ih (h.errand hparsed hdepth hs)

theorem carries : Carries host (G.liveTerms journal world) where
  toComposes := StaysLive.composes G journal world
  chores := (h.hooks.mono (h.errands hparsed hdepth)).chores
  assume hc hs := hc hs hs
  stays hs hc := by
    obtain ⟨hs', hhas, hlinked⟩ := hc hs
    refine ⟨hs', fun x hx => ?_⟩
    cases x with
    | promise p => trivial
    | module m => exact hlinked m hx
    | request m request => exact ⟨hlinked m hx.1, hx.2⟩
    | found m => exact hhas m hx
  fresh _ _ := trivial
  answer _ _ := trivial
  leafAnswer _ _ := trivial
  root {s m} hs hm := by
    cases hroot : s.cycleRoot? m with
    | none => rwa [Machine.cycleRoot, hroot]
    | some x =>
      rw [Machine.cycleRoot, hroot]
      exact hs.slated x (Machine.Slated.of_cycleRoot? hroot)
  parent hs hx := hs.slated _ (.parent hx)
  linked _ hm := isLinked_of_refusal? hm
  asked {s m} hs hm request hr := by
    have hh := Machine.has_of_isLinked hm
    obtain ⟨record, hsource, -⟩ := h.has_record hparsed hs.here hh
    exact ⟨hm, record, hsource, h.requested_eq hs.here hh hsource ▸ hr⟩
  answered {s m request n s'} hs hm hrun := by
    obtain ⟨hm, record, hsource, hr⟩ := hm
    have hh := Machine.has_of_isLinked hm
    obtain ⟨n', hn', hlinked⟩ := hs.rest.answered m hm request (by
      rwa [h.requested_eq hs.here hh hsource])
    have htarget := h.noted hs.here (h.all hs.here hh) hn'
    obtain ⟨s₁, hrun', -⟩ := h.serves.answers hs.here (h.all hs.here hh) hh htarget
    cases hrun.symm.trans hrun'
    have hstays := h.errands hparsed hdepth (h.hooks.resolve _ _ _ _ _ hrun)
    exact (hstays hs).2.2 n hlinked
  keys m s r s' hrun := h.errand hparsed hdepth (.instant (.keys hrun))
  incidental hi := h.stays_of_reactions (.of_eq hi.modules hi.host) hi.reactions
  newPromise s _ _ := h.stays_of_reactions (.of_eq rfl rfl) rfl
  settle s c result _ := h.stays_settle s c result
  attach s p reaction hh _ _ := by
    refine h.stays_attach s p fun x e => ?_
    rw [e] at hh
    exact hh
  markHandled s p := h.stays_markHandled s p
  openImport s _ _ := h.stays_of_reactions (.of_eq rfl rfl) rfl
  cyclic s m f hm hf := h.stays_updateCyclic hm hf
  leaf s m p f _ _ hleaf hkind hlive := by
    -- All modules have records, so that there is nothing to update.
    have hk : f (s.module m).kind = (s.module m).kind := hkind _ (h.isCyclic hparsed hlive.here m)
    exact h.stays_updateModule (f := fun x => { x with kind := f x.kind }) hk
      (fun x => ModuleKind.sameText_answered hleaf hkind x.kind) (fun _ => rfl) hlive
  update s m f hf := h.stays_updateModule (hf _).1
    (fun x => by rw [(hf x).1]; exact ⟨rfl, rfl⟩) fun x => (hf x).2

theorem carriesJobs : CarriesJobs host (G.liveTerms journal world) where
  toCarries := h.carries hparsed hdepth
  promise _ _ := trivial
  body hs hr := hs.slated _ (.body hr)
  finds := h.found
  link hm hrun := h.errand hparsed hdepth (.link hm hrun)
  call code x _ _ _ hrun := h.errands hparsed hdepth (h.hooks.call code x _ _ _ hrun)
  requested _ text ticket _ _ _ htold :=
    h.errands hparsed hdepth (h.hooks.importRequested _ text ticket _ _ _ htold)
  follow s _ followed := h.stays_attach s followed nofun
  beside hm hh hhandlers :=
    h.stays_aside (.of_eq hm hh) fun _ _ _ hr => .inl (.body (hhandlers _ _ hr))

/-- Whatever happens, a live machine stays live. -/
theorem episode (hs : s.Episode journal world host s') : G.StaysLive journal world s s' := by
  have hcarries := h.carriesJobs hparsed hdepth
  cases hs with
  | errand hs => exact h.errand hparsed hdepth hs
  | evaluate hrun => exact hcarries.evaluate _ _ _ _ hrun
  | importCall hrun => exact hcarries.importCall (hcarries.requested _) _ _ _ _ hrun
  | finishImport hfound hrun => exact hcarries.finishImport hfound hrun
  | importMeta hrun => exact hcarries.importMeta _ _ _ _ hrun
  | job hrun => exact hcarries.runNextJob _ _ _ hrun
  | jobs hrun => exact hcarries.runJobs _ _ _ hrun

/-- Wherever a run comes to, the machine is live. -/
theorem run (hs : ReflTransGen (Machine.Episode journal world host) s₀ s) :
    G.StaysLive journal world s₀ s := by
  have hc := StaysLive.composes G journal world
  induction hs with
  | refl => exact hc.refl s₀
  | tail _ hs ih => exact hc.trans ih (h.episode hparsed hdepth hs)

end Operations

end Animates

/-- A machine of new modules, whose namespaces have not been asked for, is live. -/
theorem live_of_new (hw : world s) (hnew : ∀ m, (s.module m).kind.IsNew)
    (hexports : ∀ m, (s.module m).exports = none)
    (hbodies : ∀ r x, s.handler? r ≠ some (.bodyEnded x)) : G.Live journal world s := by
  have hlinked : ∀ m, ¬(s.status m).IsLinked := fun m hm => by
    rw [Machine.status, (hnew m).isUnlinked.status_eq] at hm
    exact hm
  have hleads : ∀ m, (s.cyclic m).root = none ∧ (s.cyclic m).parents = [] := fun m => by
    rw [Machine.cyclic, Machine.cyclic?_eq]
    exact (hnew m).leads
  refine ⟨hw, ⟨fun m _ => (hnew m).isUnlinked, fun m hm => absurd hm (hlinked m)⟩,
    fun m _ keys hk => ?_, fun m record env _ he => ?_, fun m hm => absurd hm (hlinked m),
    fun x hx => ?_⟩
  · rw [hexports m] at hk
    cases hk
  · rw [Machine.environment?, (hnew m).environment?] at he
    cases he
  · cases hx with
    | @root m hx =>
      rw [(hleads m).1] at hx
      cases hx
    | @parent m hx =>
      rw [(hleads m).2] at hx
      cases hx
    | body hx => exact absurd hx (hbodies _ _)

end ExportGraph

end ModuleGraph

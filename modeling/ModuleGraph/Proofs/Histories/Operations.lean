import ModuleGraph.Proofs.Histories.Basic
import ModuleGraph.Proofs.Imports.Keepers

/-! # Operations have histories

All that a host can do with promises, modules, imports and jobs is made of ticks, and so is what its
own code does in the middle of a link, an evaluation or a job. Operations settle only promises that
were made, since whatever has a claim on a promise came by it when the promise was made. -/

namespace ModuleGraph

open Relation

variable {σ κ α : Type}

namespace Machine

variable {track : Tracker σ} {ledger : σ → α} {owned : σ → PromiseId → Prop}
variable {s s' s'' : Machine σ κ} {p q : PromiseId} {r : ReactionId} {es : List Incident}

/-! ## What was made stays -/

theorem Tick.made (h : s.Tick track ledger es s') (hp : s.Made p) : s'.Made p := by
  cases h with
  | aside h => rwa [Made, h.promises]
  | newPromise | newFulfilled => exact made_newPromise _ hp
  | attach reaction | lose reaction => exact (attach_attached track s _ reaction).made hp
  | settle result hc =>
    obtain ⟨-, hs⟩ | ⟨q, -, hs⟩ | ⟨x, -, hs⟩ := settle_attempts track hc result
    · rwa [hs]
    · rw [hs]
      exact Nat.lt_of_lt_of_eq hp (size_setPromise s _ _).symm
    · rwa [Made, hs.size]
  | markHandled q =>
    rw [markHandled_eq]
    split
    · exact Nat.lt_of_lt_of_eq hp (size_setPromise s _ _).symm
    · exact hp
  | takeReaction | takeJob | queueImport => exact hp

theorem History.made (h : s.History track ledger es s') (hp : s.Made p) : s'.Made p := by
  induction h with
  | nil => exact hp
  | snoc _ htick ih => exact htick.made ih

/-! ## All that is referred to was made -/

theorem Grounded.still (hs : s.Grounded owned) (h : s.Still s')
    (hclaims : ∀ p c, s'.Claims owned p c → s.Claims owned p c ∨ s'.Made p) :
    s'.Grounded owned where
  claims p c hc := (hclaims p c hc).elim (fun hc => h.made p (hs.claims p c hc)) id
  joined r j n hr := by
    rw [handler?, reaction?, h.reactions, ← reaction?, ← handler?] at hr
    exact (hs.joined r j n hr).trans_le h.joins
  held p r hr := by
    rw [h.reactions]
    exact hs.held p r ((h.held p r).1 hr)
  queued r x hr := by
    rw [h.reactions]
    exact hs.queued r x ((h.queued r x).1 hr)

theorem Grounded.settle (hs : s.Grounded owned) (ht : track.Discreet owned) {c : Capability}
    (hc : s.Made c.promise) (result : Except Value Value) :
    (s.settle track c result).Grounded owned := by
  have howned : ∀ p, owned (s.settle track c result).host p → owned s.host p :=
    fun p => owned_of_aside ht (s.aside_settle c result)
  have hsettles : s.Settles (fun _ => []) (s.settle track c result) c.promise :=
    settle_settles s (by exact fun _ _ _ => rfl) c result
  obtain hu | ⟨x, he⟩ | ⟨q, hf⟩ := hsettles
  · exact hs.still hu.still fun p c hp => .inl (hu.claims (howned p) c hp)
  · exact he.grounded hs howned
  · refine hs.still hf.still fun p d hp => (hf.claims (howned p) d hp).imp id ?_
    rintro rfl
    exact hf.still.made _ hc

theorem Grounded.markHandled (hs : s.Grounded owned) (ht : track.Discreet owned) (p : PromiseId) :
    (s.markHandled track p).Grounded owned := by
  have hu : s.Unmoved (fun _ => []) (s.markHandled track p) :=
    .markHandled (by exact fun _ _ _ => rfl) s p
  exact hs.still hu.still fun _ c hc =>
    .inl (hu.claims (fun hp => owned_of_aside ht (s.aside_markHandled p) hp) c hc)

theorem Grounded.less (hs : s.Grounded owned) (hmodules : s'.modules = s.modules)
    (hpromises : s'.promises = s.promises)
    (hreactions : ∀ r x, s'.reaction? r = some x → s.reaction? r = some x)
    (hsize : s'.reactions.size = s.reactions.size) (hjoins : s'.joins = s.joins)
    (himports : ∀ t i, s'.import? t = some i → s.import? t = some i)
    (hjobs : ∀ job ∈ s'.jobs, job ∈ s.jobs) (hhost : s'.host = s.host) :
    s'.Grounded owned where
  claims p c hc := by
    have hp := hs.claims p c (claims_less hmodules hreactions hjoins himports hjobs hhost p c hc)
    rwa [Made, hpromises]
  joined r j n hr := by
    rw [hjoins]
    exact hs.joined r j n (handler_less hreactions hr)
  held p r hr := by
    rw [Holds, promise_of_promises hpromises] at hr
    rw [hsize]
    exact hs.held p r hr
  queued r x hr := by
    rw [hsize]
    exact hs.queued r x (hjobs _ hr)

/-! ## Ticks from machines in which all was made -/

def Evolves (track : Tracker σ) (ledger : σ → α) (owned : σ → PromiseId → Prop)
    (s s' : Machine σ κ) : Prop :=
  s.Grounded owned → s'.Grounded owned ∧ ∃ es, s.History track ledger es s'

theorem evolves_composes : Composes (Machine.Evolves (κ := κ) track ledger owned) where
  refl _ hs := ⟨hs, [], .nil⟩
  trans h h' hs := by
    obtain ⟨hs₁, es, he⟩ := h hs
    obtain ⟨hs₂, es', he'⟩ := h' hs₁
    exact ⟨hs₂, es ++ es', he.append he'⟩

theorem Tick.evolves (h : s.Tick track ledger es s')
    (hs' : s.Grounded owned → s'.Grounded owned) : s.Evolves track ledger owned s' :=
  fun hs => ⟨hs' hs, es, .single h⟩

theorem Evolves.made (h : s.Evolves track ledger owned s') (hs : s.Grounded owned)
    (hp : s.Made p) : s'.Made p := by
  obtain ⟨-, es, he⟩ := h hs
  exact he.made hp

/-- Nothing comes to have a claim on a promise that was not made. -/
theorem LeavesPromises.evolves (h : s.LeavesPromises ledger s')
    (hjoins : s.joins.size ≤ s'.joins.size)
    (hclaims : ∀ p c, s'.Claims owned p c → s.Claims owned p c ∨ s.Made p) :
    s.Evolves track ledger owned s' := by
  refine (Tick.aside h).evolves fun hs => ⟨fun p c hc => ?_, fun r j n hr => ?_, fun p r hr => ?_,
    fun r x hr => ?_⟩
  · rw [Made, h.promises]
    exact (hclaims p c hc).elim (hs.claims p c) id
  · rw [handler?, reaction?, h.reactions, ← reaction?, ← handler?] at hr
    exact (hs.joined r j n hr).trans_le hjoins
  · rw [Holds, promise_of_promises h.promises] at hr
    rw [h.reactions]
    exact hs.held p r hr
  · rw [h.jobs] at hr
    rw [h.reactions]
    exact hs.queued r x hr

theorem Incidental.evolves (h : s.Incidental s') : s.Evolves track ledger owned s' := by
  refine LeavesPromises.evolves ⟨h.promises, h.reactions, h.jobs, h.unhandled, by rw [h.host]⟩
    (by rw [h.joins]) fun p => claims_beside h.modules h.joins h.imports (fun hp => h.host ▸ hp)
      (fun r hr => .inl (claims_reaction h.reactions r hr))
      (fun r hr => .inl (claims_body h.reactions r hr)) fun q hq => .inl ?_
  have hq : Job.adopt p q ∈ s'.jobs := hq
  rwa [h.jobs] at hq

theorem evolves_updateModule (s : Machine σ κ) (m : ModuleId) {f : Module → Module}
    (hf : ∀ x : Module, ∀ p, (f x).kind.AnswersWith p → x.kind.AnswersWith p ∨ s.Made p) :
    s.Evolves track ledger owned (s.updateModule m f) :=
  LeavesPromises.evolves ⟨rfl, rfl, rfl, rfl, rfl⟩ le_rfl fun p =>
    claims_cases rfl (fun _ => .inl) (fun _ => .inl) (fun _ => .inl)
      (fun _ => answersWith_updateModule fun x => hf x p) .inl

theorem evolves_newPromise (s : Machine σ κ) {st : PromiseState} (hst : st.IsFresh) :
    s.Evolves track ledger owned (s.newPromise st).2 := by
  have hgrounded : s.Grounded owned → (s.newPromise st).2.Grounded owned := fun hs =>
    hs.still (still_newPromise s hst.reactions) fun p =>
      claims_cases rfl (fun _ => .inl) (fun _ => .inl) (fun _ => .inl) (fun _ => .inl) .inl
  cases st with
  | pending rs b =>
    obtain ⟨rfl, rfl⟩ := hst
    exact (Tick.newPromise s).evolves hgrounded
  | fulfilled v => exact (Tick.newFulfilled s v).evolves hgrounded
  | rejected e handled => exact hst.elim

theorem evolves_settle (ht : track.Discreet owned) (s : Machine σ κ) {c : Capability}
    (hc : s.Made c.promise) (result : Except Value Value) :
    s.Evolves track ledger owned (s.settle track c result) :=
  (Tick.settle s result hc).evolves fun hs => hs.settle ht hc result

theorem evolves_markHandled (ht : track.Discreet owned) (s : Machine σ κ) (p : PromiseId) :
    s.Evolves track ledger owned (s.markHandled track p) :=
  (Tick.markHandled s p).evolves fun hs => hs.markHandled ht p

theorem evolves_attach (ht : track.Discreet owned) (s : Machine σ κ) (p : PromiseId)
    {reaction : Reaction κ}
    (hcapability : ∀ c, reaction.capability = some c → s.Made c.promise)
    (hbody : ∀ m c code, reaction.handler = .resumeBody m c code → s.Made c.promise)
    (hjoined : ∀ j n, reaction.handler = .joined j n → j.index < s.joins.size) :
    s.Evolves track ledger owned (s.attach track p reaction) := by
  have hgrounded : s.Grounded owned → (s.attach track p reaction).Grounded owned := fun hs =>
    (attach_attached track s p reaction).grounded hs
      (fun q => owned_of_aside ht (s.aside_attach p reaction)) hcapability hbody hjoined
  by_cases hp : s.Made p
  · exact (Tick.attach s reaction hp).evolves hgrounded
  · exact (Tick.lose s reaction hp).evolves hgrounded

theorem evolves_newJoin (s : Machine σ κ) {j : Join} (hj : s.Made j.capability.promise) :
    s.Evolves track ledger owned (s.newJoin j).2 := by
  refine LeavesPromises.evolves ⟨rfl, rfl, rfl, rfl, rfl⟩ (by simp [newJoin]) fun p =>
    claims_cases rfl ?_ (fun _ => .inl) (fun _ => .inl) (fun _ => .inl) .inl
  rintro ⟨i⟩ ⟨hi, hp⟩
  by_cases e : i = s.joins.size
  · subst e
    have hp : j.capability.promise = p := by simpa [newJoin, join] using hp
    exact .inr (hp ▸ hj)
  · refine .inl ⟨?_, ?_⟩
    · simp only [newJoin, Array.size_push] at hi
      simp only
      omega
    · simpa [newJoin, join, Array.getD_eq_getD_getElem?, Array.getElem?_push, e] using hp

theorem evolves_setJoin (s : Machine σ κ) (j : JoinId) {new : Join}
    (hnew : new.capability = (s.join j).capability) :
    s.Evolves track ledger owned { s with joins := s.joins.setIfInBounds j.index new } := by
  refine LeavesPromises.evolves ⟨rfl, rfl, rfl, rfl, rfl⟩ (by simp) fun p =>
    claims_cases rfl ?_ (fun _ => .inl) (fun _ => .inl) (fun _ => .inl) .inl
  rintro i ⟨hi, hp⟩
  rw [capability_setJoin s j hnew i] at hp
  exact .inl ⟨by simpa using hi, hp⟩

theorem evolves_openImport (s : Machine σ κ) (referrer : Referrer) (specifier : String) :
    s.Evolves track ledger owned (s.openImport referrer specifier) := by
  have hnew : s.Evolves track ledger owned s.newCapability.2 := evolves_newPromise s ⟨rfl, rfl⟩
  refine evolves_composes.trans hnew (LeavesPromises.evolves ⟨rfl, rfl, rfl, rfl, rfl⟩ le_rfl
    fun p => claims_cases rfl (fun _ => .inl) (fun t ht => ?_) (fun _ => .inl) (fun _ => .inl) .inl)
  obtain ⟨i, hi, rfl⟩ := ht
  rw [openImport, import?_newImport] at hi
  split at hi
  · cases hi
    exact .inr (made_nextPromise s _)
  · exact .inl ⟨i, hi, rfl⟩

theorem evolves_takeImport (s : Machine σ κ) (t : TicketId) :
    s.Evolves track ledger owned (s.takeImport t).2 := by
  rw [takeImport]
  split
  · refine LeavesPromises.evolves ⟨rfl, rfl, rfl, rfl, rfl⟩ le_rfl fun p =>
      claims_cases rfl (fun _ => .inl) (fun t' ht => .inl ?_) (fun _ => .inl) (fun _ => .inl) .inl
    obtain ⟨i, hi, hp⟩ := ht
    rw [import?_taken] at hi
    split at hi
    · cases hi
    · exact ⟨i, hi, hp⟩
  · exact evolves_composes.refl s

theorem evolves_queueImport (s : Machine σ κ) (referrer : Referrer) (specifier : String)
    (ticket : TicketId) :
    s.Evolves track ledger owned (s.enqueue (.finishImport referrer specifier ticket)) := by
  refine (Tick.queueImport s referrer specifier ticket).evolves fun hs => ?_
  have hstill : s.Still (s.enqueue (.finishImport referrer specifier ticket)) :=
    ⟨fun _ hp => hp, fun _ _ => rfl, fun _ _ => Iff.rfl, rfl, le_rfl, .of_eq rfl,
      fun _ _ => by simp [enqueue]⟩
  refine hs.still hstill fun p =>
    claims_cases rfl (fun _ => .inl) (fun _ => .inl) (fun q hq => .inl ?_) (fun _ => .inl) .inl
  have hq : Job.adopt p q ∈ s.jobs ++ [.finishImport referrer specifier ticket] := hq
  change Job.adopt p q ∈ s.jobs
  simpa using hq

theorem evolves_takeFirst {x : Settlement} (hjobs : s.jobs.head? = some (.react r x)) :
    s.Evolves track ledger owned (s.takeFirst r) :=
  (Tick.takeReaction hjobs).evolves fun hs =>
    hs.less rfl rfl (fun _ _ => reaction?_of_takeFirst) (by simp [takeFirst]) rfl
      (fun _ _ hi => hi) (fun _ => List.mem_of_mem_tail) rfl

theorem evolves_takeJob {job : Job} (hjobs : s.jobs.head? = some job)
    (hjob : ∀ r x, job ≠ .react r x) :
    s.Evolves track ledger owned { s with jobs := s.jobs.tail } :=
  (Tick.takeJob hjobs hjob).evolves fun hs =>
    hs.less rfl rfl (fun _ _ hr => hr) rfl rfl (fun _ _ hi => hi)
      (fun _ => List.mem_of_mem_tail) rfl

end Machine

/-! ## Operations -/

open Machine

variable {track : Tracker σ} {ledger : σ → α} {owned : σ → PromiseId → Prop}
variable {host : Host σ κ} {s s' : Machine σ κ}

/-- The terms on which operations have histories. -/
def chronicle (track : Tracker σ) (ledger : σ → α) (owned : σ → PromiseId → Prop) : Terms σ κ where
  known s := s.Grounded owned
  may s
    | .promise p => s.Made p
    | .module _ | .request .. | .found _ => True
  change s s' := s.Evolves track ledger owned s'

theorem carriesLink_chronicle (htrack : host.track = track) (ht : track.Discreet owned)
    (hchores : Chores host (chronicle track ledger owned).change) :
    CarriesLink host (chronicle track ledger owned) where
  toComposes := evolves_composes
  chores := hchores
  assume h hs := h hs hs
  stays hs h := by
    refine ⟨(h hs).1, fun x hx => ?_⟩
    cases x with
    | promise p => exact Evolves.made h hs hx
    | module m => trivial
    | request m r | found m => trivial
  fresh st _ := made_nextPromise _ st
  answer := fun {s m c} hs hc => by
    have hclaim : s.Claims owned c.promise (.module m) := .inl ⟨c, hc, rfl⟩
    exact hs.claims _ _ hclaim
  leafAnswer := fun {s m p} hs hk => by
    have hclaim : s.Claims owned p (.module m) := .inr hk
    exact hs.claims _ _ hclaim
  root _ _ := trivial
  parent _ _ := trivial
  linked _ _ := trivial
  asked _ _ _ _ := trivial
  answered _ _ _ := trivial
  keys m s r s' hrun := by
    have hasks : Asks host (chronicle track ledger owned).change :=
      { toComposes := evolves_composes
        resolve := fun m request => hchores.resolve (.module m) request
        exportedNames := hchores.exportedNames
        resolveExport := hchores.resolveExport }
    obtain ⟨s₁, h₁, rfl | ⟨keys, rfl⟩⟩ := hasks.namespaceKeys_cases hrun
    · exact h₁
    · exact evolves_composes.trans h₁ (evolves_updateModule s₁ m fun _ _ => .inl)
  incidental h := h.evolves
  newPromise s _ hst := evolves_newPromise s hst
  settle s _ result hc := htrack ▸ evolves_settle ht s hc result
  attach s p reaction hh hj hc := by
    refine htrack ▸ evolves_attach ht s p hc (fun m c code e => ?_)
      fun j k e => absurd e (hj.alone j k)
    rw [e] at hh
    exact hh
  markHandled s p := htrack ▸ evolves_markHandled ht s p
  openImport s referrer specifier := evolves_openImport s referrer specifier
  cyclic s m _ _ hf := evolves_updateModule s m fun _ _ =>
    ModuleKind.answersWith_updateCyclic fun c => (hf c).capability
  leaf s m p _ _ hp hleaf hkind := by
    refine evolves_updateModule s m fun x q hq =>
      (ModuleKind.answersWith_evaluated hleaf hkind hq).imp id ?_
    rintro rfl
    exact hp
  update s m f hf := by
    refine evolves_updateModule s m fun x p hp => .inl ?_
    rwa [(hf x).1] at hp
  relink s m f hf := evolves_updateModule s m fun x _ hp => .inl ((hf x.kind).answersWith hp)

end ModuleGraph

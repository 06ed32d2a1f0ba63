import ModuleGraph.Proofs.Histories.Operations

/-! # Runs of operations

A host uses the machine through its operations, in any order: it makes and settles promises, waits
for them, links, evaluates and imports modules, reads namespaces and runs jobs. Its bodies, hooks
and callbacks do so too while an operation is under way. A run of operations has a history. -/

namespace ModuleGraph

open Relation Machine

section Uses

variable {σ κ α : Type} {track : Tracker σ} {ledger : σ → α} {owned : σ → PromiseId → Prop}
variable {hosts : Set (Host σ κ)} {rank : Host σ κ → Nat} {host : Host σ κ} {s s' : Machine σ κ}

inductive Machine.Use (hosts : Set (Host σ κ)) (track : Tracker σ) (ledger : σ → α)
    (owned : σ → PromiseId → Prop) : Machine σ κ → Machine σ κ → Prop
  /-- Modules and other things are made, bindings are written, and the host keeps what it likes,
  among this the promises that it comes by. -/
  | aside {s s' : Machine σ κ} : s.LeavesPromises ledger s' → s'.joins = s.joins →
      s'.imports = s.imports → (∀ m p, s'.AnswersWith m p → s.AnswersWith m p) →
        (∀ p, owned s'.host p → s.Made p) → Use hosts track ledger owned s s'
  | newCapability (s : Machine σ κ) : Use hosts track ledger owned s s.newCapability.2
  | newFulfilled (s : Machine σ κ) (v : Value) : Use hosts track ledger owned s (s.newFulfilled v).2
  | newRejected (s : Machine σ κ) (e : Value) :
      Use hosts track ledger owned s (s.newRejected track e).2
  | promiseOf (s : Machine σ κ) (v : Value) : Use hosts track ledger owned s (s.promiseOf track v).2
  | settle (s : Machine σ κ) {c : Capability} (result : Except Value Value) : s.Made c.promise →
      Use hosts track ledger owned s (s.settle track c result)
  | thenCall (s : Machine σ κ) (p : PromiseId) (code : κ) :
      Use hosts track ledger owned s (s.thenCall track p code).2
  | all (s : Machine σ κ) (promises : List PromiseId) :
      Use hosts track ledger owned s (s.all track promises).2
  | link {s s' : Machine σ κ} {host m result} : host ∈ hosts →
      host.link m s = some (result, s') → Use hosts track ledger owned s s'
  | evaluate {s s' : Machine σ κ} {host m p} : host ∈ hosts →
      host.evaluate m s = some (p, s') → Use hosts track ledger owned s s'
  | importCall {s s' : Machine σ κ} {host referrer specifier p} : host ∈ hosts →
      host.importCall referrer specifier s = some (p, s') → Use hosts track ledger owned s s'
  | queueImport (s : Machine σ κ) (referrer : Referrer) (specifier : String) (ticket : TicketId) :
      Use hosts track ledger owned s (s.enqueue (.finishImport referrer specifier ticket))
  | finishImport {s s' : Machine σ κ} {host ticket found} : host ∈ hosts →
      host.finishImport ticket found s = some ((), s') → Use hosts track ledger owned s s'
  | importMeta {s s' : Machine σ κ} {host m o} : host ∈ hosts →
      host.importMeta m s = some (o, s') → Use hosts track ledger owned s s'
  | namespaceOf {s s' : Machine σ κ} {host m result} : host ∈ hosts →
      host.namespaceOf m s = some (result, s') → Use hosts track ledger owned s s'
  | namespaceGet {s s' : Machine σ κ} {host m key result} : host ∈ hosts →
      host.namespaceGet m key s = some (result, s') → Use hosts track ledger owned s s'
  | getBinding {s s' : Machine σ κ} {host m name result} : host ∈ hosts →
      host.getBinding m name s = some (result, s') → Use hosts track ledger owned s s'
  | job {s s' : Machine σ κ} {host result} : host ∈ hosts →
      runNextJob host s = some (result, s') → Use hosts track ledger owned s s'

abbrev Machine.Uses (hosts : Set (Host σ κ)) (track : Tracker σ) (ledger : σ → α)
    (owned : σ → PromiseId → Prop) : Machine σ κ → Machine σ κ → Prop :=
  ReflTransGen (Use hosts track ledger owned)

def Machine.Does (hosts : Set (Host σ κ)) (track : Tracker σ) (ledger : σ → α)
    (owned : σ → PromiseId → Prop) (s s' : Machine σ κ) : Prop :=
  (∀ p, owned s.host p → s.Made p) → s.Uses hosts track ledger owned s'

/-- How hosts use the machine: their code does nothing but operations. All of them are told about
rejections in the same way, which does not give them promises. Code that runs in the middle of an
operation uses hosts of smaller rank: a host that calls itself is the limit of such ones, and a run
of it that ends is a run of one of them. -/
structure Operates (hosts : Set (Host σ κ)) (rank : Host σ κ → Nat) (track : Tracker σ)
    (ledger : σ → α) (owned : σ → PromiseId → Prop) : Prop where
  tracker : ∀ host ∈ hosts, host.track = track
  discreet : track.Discreet owned
  hooks : ∀ host ∈ hosts, Hooks host
    (Does {below | below ∈ hosts ∧ rank below < rank host} track ledger owned)
  bindingValue : ∀ host ∈ hosts, ∀ m name, Within
    (Does {below | below ∈ hosts ∧ rank below < rank host} track ledger owned)
    (host.bindingValue m name)

/-! ## Terms of whole runs -/

theorem Machine.promiseOf_of_ne (s : Machine σ κ) {v : Value} (hv : ∀ p, v ≠ .promise p) :
    (s.promiseOf track v).2 = s.newCapability.2.settle track s.newCapability.1 (.ok v) := by
  cases v <;> first | rfl | exact (hv _ rfl).elim

structure Host.Heeds (host : Host σ κ) (track : Tracker σ) (w : Terms σ κ) : Prop where
  tracker : host.track = track
  hooks : Hooks host w.change
  bindingValue : ∀ m name, Within w.change (host.bindingValue m name)

/-- Terms that hold across all operations of a host that keeps them. -/
structure Terms.Governs (w : Terms σ κ) (track : Tracker σ) (ledger : σ → α)
    (owned : σ → PromiseId → Prop) : Prop extends Composes w.change where
  assume : ∀ {s s'}, (w.known s → w.change s s') → w.change s s'
  owns : ∀ {s p}, w.known s → owned s.host p → s.Made p
  aside : ∀ {s s'}, s.LeavesPromises ledger s' → s'.joins = s.joins → s'.imports = s.imports →
    (∀ m p, s'.AnswersWith m p → s.AnswersWith m p) → (∀ p, owned s'.host p → s.Made p) →
      w.change s s'
  newPromise : ∀ s {state : PromiseState}, state.IsFresh → w.change s (s.newPromise state).2
  settle : ∀ s {c} result, s.Made c.promise → w.change s (s.settle track c result)
  thenCall : ∀ s p code, w.change s (s.thenCall track p code).2
  all : ∀ s promises, w.change s (s.all track promises).2
  queueImport : ∀ s referrer specifier ticket,
    w.change s (s.enqueue (.finishImport referrer specifier ticket))
  takeImport : ∀ s t, w.change s (s.takeImport t).2
  ticket : ∀ {s t i}, w.known s → s.import? t = some i →
    w.may (s.takeImport t).2 (.promise i.capability.promise)
  carriesLink : ∀ {host}, host.Heeds track w → CarriesLink host w
  runNextJob : ∀ {host}, host.Heeds track w →
    (∀ ticket found, Along w.change (host.finishImport ticket found)) →
      Within w.change (ModuleGraph.runNextJob host)

namespace Terms.Governs

variable {w : Terms σ κ}

theorem finishImport (hw : w.Governs track ledger owned) (h : host.Heeds track w)
    (ticket : TicketId) (found : Except Value ModuleId) :
    Along w.change (host.finishImport ticket found) := by
  intro s u s' hrun
  refine hw.assume fun hs => ?_
  cases hi : s.import? ticket with
  | none =>
    rw [finishImport_of_redeemed host found hi] at hrun
    cases hrun
    exact hw.refl s
  | some i =>
    have hcarries := hw.carriesLink h
    have hmay := hw.ticket hs hi
    refine hw.trans (hw.takeImport s ticket) ?_
    obtain ⟨e, -, rfl⟩ | ⟨m, -, hload⟩ := finishImport_cases hi hrun
    · exact hcarries.reject _ e hmay
    · exact hcarries.loadImported (hcarries.link m _) hmay hload

theorem newSettled (hw : w.Governs track ledger owned) (s : Machine σ κ)
    (result : Except Value Value) :
    w.change s (s.newCapability.2.settle track s.newCapability.1 result) := by
  have hnew : w.change s s.newCapability.2 := hw.newPromise s ⟨rfl, rfl⟩
  exact hw.trans hnew (hw.settle _ result (made_nextPromise s _))

theorem use (hw : w.Governs track ledger owned) (hhosts : ∀ host ∈ hosts, host.Heeds track w)
    (h : s.Use hosts track ledger owned s') : w.change s s' := by
  cases h with
  | aside h hjoins himports hanswers howned => exact hw.aside h hjoins himports hanswers howned
  | newCapability => exact hw.newPromise s ⟨rfl, rfl⟩
  | newFulfilled v => exact hw.newPromise s trivial
  | newRejected e => exact hw.newSettled s (.error e)
  | promiseOf v =>
    by_cases hv : ∃ p, v = .promise p
    · obtain ⟨p, rfl⟩ := hv
      exact hw.refl s
    · rw [promiseOf_of_ne s (not_exists.1 hv)]
      exact hw.newSettled s (.ok v)
  | settle result hc => exact hw.settle s result hc
  | thenCall p code => exact hw.thenCall s p code
  | all promises => exact hw.all s promises
  | link hhost hrun => exact (hw.carriesLink (hhosts _ hhost)).link _ _ _ _ hrun
  | evaluate hhost hrun => exact (hw.carriesLink (hhosts _ hhost)).evaluate _ _ _ _ hrun
  | importCall hhost hrun =>
    have h := hhosts _ hhost
    exact (hw.carriesLink h).importCall
      (fun text ticket => h.hooks.importRequested _ text ticket) _ _ _ _ hrun
  | queueImport referrer specifier ticket => exact hw.queueImport s referrer specifier ticket
  | finishImport hhost hrun => exact hw.finishImport (hhosts _ hhost) _ _ _ _ _ hrun
  | importMeta hhost hrun => exact (hw.carriesLink (hhosts _ hhost)).importMeta _ _ _ _ hrun
  | namespaceOf hhost hrun => exact (hw.carriesLink (hhosts _ hhost)).namespaceOf _ _ _ _ hrun
  | namespaceGet hhost hrun =>
    have h := hhosts _ hhost
    exact (hw.carriesLink h).namespaceGet h.bindingValue _ _ _ _ _ hrun
  | getBinding hhost hrun =>
    have h := hhosts _ hhost
    exact (hw.carriesLink h).getBinding h.bindingValue _ _ _ _ _ hrun
  | job hhost hrun =>
    have h := hhosts _ hhost
    exact hw.runNextJob h (hw.finishImport h) _ _ _ hrun

theorem uses (hw : w.Governs track ledger owned) (hhosts : ∀ host ∈ hosts, host.Heeds track w)
    (h : s.Uses hosts track ledger owned s') : w.change s s' := by
  induction h with
  | refl => exact hw.refl s
  | tail _ huse ih => exact hw.trans ih (hw.use hhosts huse)

/-- The induction is on the rank of the host. -/
theorem heeds (hw : w.Governs track ledger owned)
    (h : Operates hosts rank track ledger owned) (hhost : host ∈ hosts) : host.Heeds track w := by
  induction hrank : rank host using Nat.strong_induction_on generalizing host with
  | _ n ih =>
    subst hrank
    have hdoes : ∀ {s s' : Machine σ κ},
        s.Does {below | below ∈ hosts ∧ rank below < rank host} track ledger owned s' →
          w.change s s' := fun hd => hw.assume fun hs =>
      hw.uses (fun below hbelow => ih _ hbelow.2 hbelow.1 rfl) (hd fun _ => hw.owns hs)
    exact ⟨h.tracker host hhost, (h.hooks host hhost).mono hdoes,
      fun m name _ _ _ hrun => hdoes (h.bindingValue host hhost m name _ _ _ hrun)⟩

end Terms.Governs

/-! ## Runs have histories -/

structure Host.Evolves (host : Host σ κ) (track : Tracker σ) (ledger : σ → α)
    (owned : σ → PromiseId → Prop) : Prop
    extends host.Heeds track (chronicle track ledger owned) where
  discreet : track.Discreet owned

namespace Host.Evolves

theorem carriesLink (h : host.Evolves track ledger owned) :
    CarriesLink host (chronicle track ledger owned) :=
  carriesLink_chronicle h.tracker h.discreet h.hooks.chores

theorem runNextJob (h : host.Evolves track ledger owned) (hfinish : ∀ ticket found,
      Along (Machine.Evolves track ledger owned) (host.finishImport ticket found)) :
    Within (Machine.Evolves track ledger owned) (ModuleGraph.runNextJob host) := by
  intro s result s' hrun hs
  cases hjobs : s.jobs with
  | nil =>
    rw [ModuleGraph.runNextJob, Act.make_bind, takeJob, hjobs] at hrun
    cases hrun
    exact evolves_composes.refl s hs
  | cons job rest =>
    have hhead : s.jobs.head? = some job := by rw [hjobs, List.head?_cons]
    obtain ⟨result', hjob⟩ := runNextJob_job hjobs hrun
    cases job with
    | adopt p followed =>
      have htake : s.Evolves track ledger owned { s with jobs := s.jobs.tail } :=
        evolves_takeJob hhead fun _ _ e => by cases e
      rw [hjobs, List.tail_cons] at htake
      have hp : s.Made p := by
        have hclaim : s.Claims owned p (.follow followed) := by
          change Job.adopt p followed ∈ s.jobs
          rw [hjobs]
          exact List.mem_cons_self
        exact hs.claims p _ hclaim
      cases hjob
      rw [h.tracker]
      refine evolves_composes.trans htake (evolves_attach h.discreet _ followed (fun c hc => ?_)
        (fun _ _ _ e => by cases e) fun _ _ e => by cases e) hs
      cases hc
      exact hp
    | finishImport referrer specifier ticket =>
      have htake : s.Evolves track ledger owned { s with jobs := s.jobs.tail } :=
        evolves_takeJob hhead fun _ _ e => by cases e
      rw [hjobs, List.tail_cons] at htake
      have hfinish : Within (Machine.Evolves track ledger owned)
          (ModuleGraph.runJob host (.finishImport referrer specifier ticket)) :=
        Within.bind evolves_composes
          (Within.ofRun (Along.outcome (h.hooks.resolve referrer specifier)))
          fun found => Within.ofRun (hfinish ticket found)
      exact evolves_composes.trans htake (hfinish _ _ _ hjob) hs
    | react r x =>
      have htake : s.Evolves track ledger owned (s.takeFirst r) := evolves_takeFirst hhead
      cases hr : s.reaction? r with
      | none =>
        cases runJob_spent hjobs hr hjob
        exact htake hs
      | some reaction =>
        obtain ⟨result', s₁, hhandler, rfl⟩ := runJob_react hjobs hr hjob
        have hk : s.handler? r = some reaction.handler := by rw [handler?, hr, Option.map_some]
        have hadmits : (chronicle track ledger owned).Admits (s.takeFirst r) reaction.handler := by
          cases e : reaction.handler with
          | resumeBody m c code =>
            have hclaim : s.Claims owned c.promise (.body r) := ⟨m, c, code, e ▸ hk, rfl⟩
            exact htake.made hs (hs.claims _ _ hclaim)
          | joined j n =>
            have hclaim : s.Claims owned (s.join j).capability.promise (.join j) :=
              ⟨hs.joined r j n (e ▸ hk), rfl⟩
            exact htake.made hs (hs.claims _ _ hclaim)
          | bodyEnded m | passOn | callback code | imported m => trivial
        have hhandled : (s.takeFirst r).Evolves track ledger owned s₁ :=
          h.carriesLink.runHandler (fun code _ => h.hooks.call code x)
            (fun j _ _ _ hnew => evolves_setJoin _ j hnew) hadmits hhandler
        have hran := evolves_composes.trans htake hhandled
        cases hcap : reaction.capability with
        | none => exact hran hs
        | some c =>
          have hclaim : s.Claims owned c.promise (.reaction r) := ⟨reaction, c, hr, hcap, rfl⟩
          rw [h.tracker]
          refine evolves_composes.trans hran (evolves_settle h.discreet s₁ ?_ _) hs
          exact hran.made hs (hs.claims _ _ hclaim)

end Host.Evolves

namespace Machine

theorem evolves_attachJoined (ht : track.Discreet owned) {j : JoinId} (ps : List PromiseId) :
    ∀ (s : Machine σ κ) (position : Nat), j.index < s.joins.size →
      s.Evolves track ledger owned (s.attachJoined track j position ps) := by
  induction ps with
  | nil => exact fun s _ _ => evolves_composes.refl s
  | cons p rest ih =>
    intro s position hj
    rw [attachJoined]
    refine evolves_composes.trans
      (evolves_attach ht s p (fun _ e => ?_) (fun _ _ _ e => ?_) fun i n e => ?_) (ih _ _ ?_)
    · cases e
    · cases e
    · cases e
      exact hj
    · rwa [(attach_attached track s p _).joins]

theorem evolves_all (ht : track.Discreet owned) (s : Machine σ κ) (ps : List PromiseId) :
    s.Evolves track ledger owned (s.all track ps).2 := by
  have hnew : s.Evolves track ledger owned s.newCapability.2 := evolves_newPromise s ⟨rfl, rfl⟩
  have hmade : s.newCapability.2.Made s.newCapability.1.promise := made_nextPromise s _
  refine evolves_composes.trans hnew ?_
  rw [all]
  dsimp only
  split
  · have hobject : s.newCapability.2.Evolves track ledger owned
        (s.newCapability.2.newObject (.ofList [])).2 :=
      Incidental.evolves ⟨rfl, rfl, rfl, rfl, rfl, rfl, rfl, rfl⟩
    exact evolves_composes.trans hobject
      (evolves_settle ht (s.newCapability.2.newObject (.ofList [])).2 hmade (.ok (.object _)))
  · refine evolves_composes.trans (evolves_newJoin _ hmade) (evolves_attachJoined ht ps _ 0 ?_)
    simp [newJoin]

end Machine

theorem governs_chronicle (ht : track.Discreet owned) :
    (chronicle (κ := κ) track ledger owned).Governs track ledger owned where
  toComposes := evolves_composes
  assume h hs := h hs hs
  owns hs hp := hs.claims _ .host hp
  aside := fun {s s'} h hjoins himports hanswers howned => by
    refine h.evolves (by rw [hjoins]) fun p => claims_cases h.reactions (fun j hj => .inl ?_)
      (fun t hi => .inl ?_) (fun q hq => .inl ?_) (fun m hm => .inl (hanswers m p hm))
      fun hp => .inr (howned p hp)
    · obtain ⟨hlt, hc⟩ := hj
      rw [join, hjoins, ← join] at hc
      exact ⟨hjoins ▸ hlt, hc⟩
    · obtain ⟨i, hi, hc⟩ := hi
      exact ⟨i, by rwa [import?, himports, ← import?] at hi, hc⟩
    · have hq : Job.adopt p q ∈ s'.jobs := hq
      rwa [h.jobs] at hq
  newPromise s _ hst := evolves_newPromise s hst
  settle s _ result hc := evolves_settle ht s hc result
  thenCall s p code := by
    have hnew : s.Evolves track ledger owned s.newCapability.2 := evolves_newPromise s ⟨rfl, rfl⟩
    refine evolves_composes.trans hnew (evolves_attach ht s.newCapability.2 p (fun c hc => ?_)
      (fun _ _ _ e => by cases e) fun _ _ e => by cases e)
    cases hc
    exact made_nextPromise s _
  all s promises := evolves_all ht s promises
  queueImport s referrer specifier ticket := evolves_queueImport s referrer specifier ticket
  takeImport s t := evolves_takeImport s t
  ticket := fun {s t i} hs hi => by
    have hclaim : s.Claims owned i.capability.promise (.ticket t) := ⟨i, hi, rfl⟩
    have htake : s.Evolves track ledger owned (s.takeImport t).2 := evolves_takeImport s t
    exact htake.made hs (hs.claims _ _ hclaim)
  carriesLink h := carriesLink_chronicle h.tracker ht h.hooks.chores
  runNextJob h hfinish := (Host.Evolves.mk h ht).runNextJob hfinish

theorem Operates.evolves (h : Operates hosts rank track ledger owned) (hhost : host ∈ hosts) :
    host.Evolves track ledger owned :=
  ⟨(governs_chronicle h.discreet).heeds h hhost, h.discreet⟩

theorem Operates.uses_evolve (h : Operates hosts rank track ledger owned)
    (hs : s.Uses hosts track ledger owned s') : s.Evolves track ledger owned s' :=
  (governs_chronicle h.discreet).uses (fun _ hhost => (h.evolves hhost).toHeeds) hs

/-- A run of operations that starts when nothing was made yet. -/
def Machine.Arises (hosts : Set (Host σ κ)) (track : Tracker σ) (ledger : σ → α)
    (owned : σ → PromiseId → Prop) (h : σ) (s : Machine σ κ) : Prop :=
  (∀ p, ¬owned h p) ∧ (initial h).Uses hosts track ledger owned s

/-- A machine that comes about in the course of operations. -/
def Machine.Underway (track : Tracker σ) (ledger : σ → α) (owned : σ → PromiseId → Prop) (h : σ)
    (s : Machine σ κ) : Prop :=
  s.Grounded owned ∧ ∃ es, (initial h).History track ledger es s

theorem Operates.underway (h : Operates hosts rank track ledger owned) {h₀ : σ}
    (hs : s.Arises hosts track ledger owned h₀) : s.Underway track ledger owned h₀ :=
  h.uses_evolve hs.2 (trusty_initial hs.1).toGrounded

theorem Operates.continues (h : Operates hosts rank track ledger owned) {h₀ : σ}
    (hs : s.Underway track ledger owned h₀) (hs' : s.Uses hosts track ledger owned s') :
    ∃ es, s.History track ledger es s' :=
  (h.uses_evolve hs' hs.1).2

/-- What a run has reached has a history, and so has what it does from there on. -/
theorem Operates.history (h : Operates hosts rank track ledger owned) {h₀ : σ}
    (hs : s.Arises hosts track ledger owned h₀) (hs' : s.Uses hosts track ledger owned s') :
    ∃ es es', (initial h₀).History track ledger es s ∧ s.History track ledger es' s' := by
  obtain ⟨es, he⟩ := (h.underway hs).2
  obtain ⟨es', he'⟩ := h.continues (h.underway hs) hs'
  exact ⟨es, es', he, he'⟩

end Uses

/-! ## A run -/

/-- A host without modules that keeps all that it is told about rejections. -/
def Host.recorder (depth : Nat) : Host (List (PromiseId × RejectionEvent)) Unit :=
  { Host.bare depth with track := fun p e told => told ++ [(p, e)] }

namespace Recorder

abbrev Told := List (PromiseId × RejectionEvent)

def host : Host Told Unit := .recorder 9

def hosts : Set (Host Told Unit) := {h | h = host}

def owned (_ : Told) (_ : PromiseId) : Prop := False

theorem operates : Operates hosts (fun _ => 0) host.track id owned where
  tracker h hhost := by
    cases hhost
    rfl
  discreet _ _ _ _ hp := hp
  hooks h hhost := by
    cases hhost
    have hR : ∀ below : Set (Host Told Unit), Composes (Does below host.track id owned) := fun _ =>
      ⟨fun _ _ => .refl, fun h h' ho => (h ho).trans (h' nofun)⟩
    have herror : ∀ (below : Set (Host Told Unit)) s kind message,
        Use below host.track id owned s (s.newError kind message).2 := fun _ _ _ _ =>
      .aside ⟨rfl, rfl, rfl, rfl, rfl⟩ rfl rfl (fun _ _ hp => hp) nofun
    exact
      { resolve := fun _ _ s r s' hrun => by
          cases hrun
          exact fun _ => .single (herror _ s _ _)
        prepare := fun _ => Within.pure (hR _) _
        execute := fun _ => Within.pure (hR _) _
        resume := fun _ _ => Within.pure (hR _) _
        call := fun _ x => Within.ofExcept (hR _) x.toExcept
        linkLeaf := fun _ => Within.pure (hR _) _
        evaluateLeaf := fun _ => Within.pure (hR _) _
        initializeForeign := fun _ => Within.pure (hR _) _
        instantiateForeign := fun _ => Within.pure (hR _) _
        executeForeign := fun _ => Within.pure (hR _) _
        exportedNames := fun _ => Within.ofRun (Along.pure (hR _) _)
        resolveExport := fun _ _ _ => Within.pure (hR _) _
        importRequested := fun _ _ _ s u s' hrun => by
          cases hrun
          exact fun _ => .single (.queueImport ..)
        metaProperties := fun _ => Along.pure (hR _) _
        finishMeta := fun _ _ => Along.pure (hR _) _ }
  bindingValue h hhost m name s r s' hrun := by
    cases hhost
    cases hrun
    exact fun _ => .refl

def rejected : Machine Told Unit := ((initial []).newRejected host.track .undefined).2

def awaited : Machine Told Unit := (rejected.thenCall host.track ⟨0⟩ ()).2

def passedOn : Machine Told Unit := ((runNextJob host awaited).get (by rfl)).2

theorem runNextJob_awaited : runNextJob host awaited = some (.ok true, passedOn) := by rfl

theorem arises_rejected : rejected.Arises hosts host.track id owned [] :=
  ⟨fun _ => id, .single (.newRejected _ _)⟩

theorem uses_passedOn : rejected.Uses hosts host.track id owned passedOn :=
  .head (.thenCall _ _ _) (.single (.job rfl runNextJob_awaited))

/-! ### What happens in it -/

theorem history_rejected : (initial []).History host.track id
    [.settled ⟨0⟩ (.rejected .undefined)] rejected :=
  have hnew : (initial []).Tick host.track id [] ((initial []).newPromise (.pending [] false)).2 :=
    .newPromise _
  have hsettle : ((initial []).newPromise (.pending [] false)).2.Tick host.track id
      [.settled ⟨0⟩ (.rejected .undefined)] rejected :=
    .settle _ (c := ⟨⟨0⟩, true⟩) (.error .undefined) Nat.zero_lt_one
  .append (.single hnew) (.single hsettle)

theorem history_awaited : rejected.History host.track id [.attached ⟨0⟩ ⟨0⟩] awaited :=
  have hnew : rejected.Tick host.track id [] (rejected.newPromise (.pending [] false)).2 :=
    .newPromise _
  have hattach : (rejected.newPromise (.pending [] false)).2.Tick host.track id
      [.attached ⟨0⟩ ⟨0⟩] awaited :=
    .attach _ (p := ⟨0⟩) ⟨.callback (), some ⟨⟨1⟩, true⟩⟩ Nat.two_pos
  .append (.single hnew) (.single hattach)

theorem history_passedOn : awaited.History host.track id
    [.ran ⟨0⟩ (.rejected .undefined), .settled ⟨1⟩ (.rejected .undefined)] passedOn :=
  have htake : awaited.Tick host.track id [.ran ⟨0⟩ (.rejected .undefined)]
      (awaited.takeFirst ⟨0⟩) := .takeReaction rfl
  have hsettle : (awaited.takeFirst ⟨0⟩).Tick host.track id
      [.settled ⟨1⟩ (.rejected .undefined)] passedOn :=
    .settle _ (c := ⟨⟨1⟩, true⟩) (.error .undefined) Nat.one_lt_two
  .append (.single htake) (.single hsettle)

def story : List Incident :=
  [.settled ⟨0⟩ (.rejected .undefined), .attached ⟨0⟩ ⟨0⟩, .ran ⟨0⟩ (.rejected .undefined),
    .settled ⟨1⟩ (.rejected .undefined)]

theorem history_story : (initial []).History host.track id story passedOn :=
  .append history_rejected (.append history_awaited history_passedOn)

end Recorder

end ModuleGraph

import ModuleGraph.Proofs.Imports.Changes
import ModuleGraph.Proofs.Runs.Jobs

/-! # Turns leave entrusted promises alone

The deeds of the host, links, evaluations, imports and jobs are made of small changes, so that no
turn of a run touches an entrusted promise, except for the job that runs its keeper. -/

namespace ModuleGraph

open Relation

variable {σ κ : Type} {hosts : Set (Host σ κ)} {rank : Host σ κ → Nat} {host : Host σ κ}
variable {owned : σ → PromiseId → Prop} {also : PromiseId → Keeper → Prop}

namespace Machine

variable {s s' : Machine σ κ} {p q : PromiseId} {r : ReactionId} {t : TicketId} {k : Keeper}

/-! ## Deeds -/

theorem change_thenCall {track : Tracker σ} (ht : track.Discreet owned)
    (s : Machine σ κ) (p : PromiseId) (code : κ) :
    (trust owned also).change s (s.thenCall track p code).2 := by
  have hnew : (trust owned also).change s s.newCapability.2 :=
    change_newPromise s s.host rfl fun _ => .inl
  intro hs
  refine trust_composes.trans hnew (change_attach ht s.newCapability.2 p (fun c hc => ?_)
    (fun _ _ _ e => nomatch e) fun _ _ e => nomatch e) hs
  cases hc
  exact hs.common_nextPromise _

theorem change_all {track : Tracker σ} (ht : track.Discreet owned)
    (s : Machine σ κ) (ps : List PromiseId) :
    (trust owned also).change s (s.all track ps).2 := by
  have hnew : (trust owned also).change s s.newCapability.2 :=
    change_newPromise s s.host rfl fun _ => .inl
  intro hs
  have hc : s.newCapability.2.Common also s.nextPromise := hs.common_nextPromise _
  refine trust_composes.trans hnew ?_ hs
  rw [all]
  dsimp only
  split
  · have hobject : (trust owned also).change s.newCapability.2
        (s.newCapability.2.newObject (.ofList [])).2 :=
      Incidental.change ⟨rfl, rfl, rfl, rfl, rfl, rfl, rfl, rfl⟩
    exact trust_composes.trans hobject
      (change_settle (c := s.newCapability.1) ht _ (.ok (.object _)) ⟨hc.made, hc.apart⟩)
  · refine trust_composes.trans (change_newJoin _ hc) (change_attachJoined ht ps _ 0 ?_)
    simp [newJoin]

/-- What the code of a host does, where the links and evaluations in it leave entrusted promises
alone. -/
theorem Deed.change (hhosts : ∀ host ∈ hosts, CarriesLink host (trust owned also))
    (hd : s.Deed hosts owned s') : (trust owned also).change s s' := by
  cases hd with
  | apart h => exact h.change
  | newPromise h hst howned => exact change_newPromise s h hst howned
  | newSettled result ht =>
    have hnew : (trust owned also).change s s.newCapability.2 :=
      change_newPromise s s.host rfl fun _ => .inl
    exact fun hs => trust_composes.trans hnew
      (change_settle ht s.newCapability.2 result (hs.common_nextPromise _)) hs
  | settle result ht hc =>
    exact fun hs => change_settle ht s result
      (hs.common_of_ne (c := .host) hc fun k hk => by cases k <;> cases hk) hs
  | thenCall p code ht => exact change_thenCall ht s p code
  | all ps ht => exact change_all ht s ps
  | openImport referrer specifier => exact change_openImport s referrer specifier
  | queueImport referrer specifier ticket => exact change_queueImport s referrer specifier ticket
  | link hhost hrun => exact (hhosts _ hhost).link _ _ _ _ hrun
  | evaluate hhost hrun => exact (hhosts _ hhost).evaluate _ _ _ _ hrun

theorem Deeds.change (hhosts : ∀ host ∈ hosts, CarriesLink host (trust owned also))
    (hd : s.Deeds hosts owned s') : (trust owned also).change s s' := by
  induction hd with
  | refl => exact trust_composes.refl s
  | tail _ hd ih => exact trust_composes.trans ih (Deed.change hhosts hd)

end Machine

/-! ## Operations -/

open Machine

/-- Links and evaluations leave entrusted promises alone, if what the host does in them does. -/
theorem carriesLink_trust (ht : host.track.Discreet owned)
    (hchores : Chores host (trust owned also).change) : CarriesLink host (trust owned also) where
  toComposes := trust_composes
  chores := hchores
  assume hc hs := hc hs hs
  stays hs hc := by
    obtain ⟨hs', hcommon, -⟩ := hc hs
    refine ⟨hs', fun x hx => ?_⟩
    cases x with
    | promise p => exact hcommon p hx
    | module m => trivial
    | request m r | found m => trivial
  fresh st hs := hs.common_nextPromise st
  answer := fun {s m c} hs hc => by
    have hclaim : s.Claims owned c.promise (.module m) := .inl ⟨c, hc, rfl⟩
    exact hs.common_of_ne hclaim fun k hk => by cases k <;> cases hk
  leafAnswer := fun {s m p} hs hk => by
    have hclaim : s.Claims owned p (.module m) := .inr hk
    exact hs.common_of_ne hclaim fun k hk => by cases k <;> cases hk
  root _ _ := trivial
  parent _ _ := trivial
  linked _ _ := trivial
  asked _ _ _ _ := trivial
  answered _ _ _ := trivial
  keys m s r s' hrun := by
    have hasks : Asks host (trust owned also).change :=
      { toComposes := trust_composes
        resolve := fun m request => hchores.resolve (.module m) request
        exportedNames := hchores.exportedNames
        resolveExport := hchores.resolveExport }
    obtain ⟨s₁, h₁, rfl | ⟨keys, rfl⟩⟩ := hasks.namespaceKeys_cases hrun
    · exact h₁
    · exact trust_composes.trans h₁ (change_updateModule s₁ m fun _ _ => .inl)
  incidental h := Incidental.change h
  newPromise s _ hst := change_newPromise s s.host hst.reactions fun _ => .inl
  settle s _ result hc := change_settle ht s result hc
  attach s p reaction hh hj hc := by
    refine change_attach ht s p hc (fun m c code e => ?_) fun j k e => absurd e (hj.alone j k)
    rw [e] at hh
    exact hh
  markHandled s p := change_markHandled ht s p
  openImport s referrer specifier := change_openImport s referrer specifier
  cyclic s m _ _ hf := change_updateModule s m fun _ _ =>
    ModuleKind.answersWith_updateCyclic fun c => (hf c).capability
  leaf s m p _ _ hp hleaf hkind := by
    refine change_updateModule s m fun x q hq =>
      (ModuleKind.answersWith_evaluated hleaf hkind hq).imp id ?_
    rintro rfl
    exact hp
  update s m f hf := by
    refine change_updateModule s m fun x p hp => .inl ?_
    rwa [(hf x).1] at hp
  relink s m f hf := change_updateModule s m fun x _ hp => .inl ((hf x.kind).answersWith hp)

/-- The induction is on the rank: a link or an evaluation in the middle of another one is by a host
of smaller rank. -/
theorem Observes.carries (h : Observes hosts rank owned) (hhost : host ∈ hosts) :
    CarriesLink host (trust owned also) := by
  induction hrank : rank host using Nat.strong_induction_on generalizing host with
  | _ n ih =>
    subst hrank
    refine carriesLink_trust (h.track host hhost) ((h.chores host hhost).mono (Deeds.change ?_))
    exact fun below hbelow => ih _ hbelow.2 hbelow.1 rfl

namespace Machine

variable {s s' : Machine σ κ} {r : ReactionId} {t : TicketId}

theorem size_takeImport (s : Machine σ κ) (t : TicketId) :
    (s.takeImport t).2.imports.size = s.imports.size := by
  rw [takeImport]
  split
  · exact Array.size_setIfInBounds
  · rfl

/-- Redeeming an open ticket, from where its import has been taken. -/
theorem change_redeemed (h : Observes hosts rank owned) (hhost : host ∈ hosts) {i : PendingImport}
    {found : Except Value ModuleId} {u : Unit} (hi : s.import? t = some i)
    (hc : (s.takeImport t).2.Common also i.capability.promise)
    (hrun : host.finishImport t found s = some (u, s')) :
    (trust owned also).change (s.takeImport t).2 s' := by
  obtain ⟨e, -, rfl⟩ | ⟨m, -, hload⟩ := finishImport_cases hi hrun
  · exact (h.carries hhost).reject _ e hc
  · exact (h.carries hhost).loadImported ((h.carries hhost).link m _) hc hload

/-- A job that runs neither a callback nor the keeper of a promise that is looked after. -/
theorem change_job (h : Observes hosts rank owned) (hhost : host ∈ hosts)
    {result : Except Value Bool}
    (hcallback : ∀ r x code, s.jobs.head? = some (.react r x) →
      s.handler? r ≠ some (.callback code))
    (himport : ∀ referrer specifier ticket,
      s.jobs.head? ≠ some (.finishImport referrer specifier ticket))
    (halso : ∀ r x, s.jobs.head? = some (.react r x) → ∀ p f m, ¬also p (.reaction r f m))
    (hrun : runNextJob host s = some (result, s')) : (trust owned also).change s s' := by
  intro hs
  cases hjobs : s.jobs with
  | nil =>
    rw [runNextJob, Act.make_bind, takeJob, hjobs] at hrun
    cases hrun
    exact trust_composes.refl s hs
  | cons job rest =>
    have hhead : s.jobs.head? = some job := by rw [hjobs, List.head?_cons]
    obtain ⟨result', hjob⟩ := runNextJob_job hjobs hrun
    cases job with
    | finishImport referrer specifier ticket => exact absurd hhead (himport _ _ _)
    | adopt q followed =>
      have htake : (trust owned also).change s { s with jobs := s.jobs.tail } :=
        change_takeJob hhead fun _ _ e => by cases e
      rw [hjobs, List.tail_cons] at htake
      have hclaim : s.Claims owned q (.follow followed) := by
        change Job.adopt q followed ∈ s.jobs
        rw [hjobs]
        exact List.mem_cons_self
      have hq := hs.common_of_ne hclaim fun k hk => by cases k <;> cases hk
      cases hjob
      refine trust_composes.trans htake (change_attach (h.track host hhost) _ followed
        (fun c hc => ?_) (fun _ _ _ e => by cases e) fun _ _ e => by cases e) hs
      cases hc
      exact ⟨hq.made, hq.apart⟩
    | react r x =>
      have halso := halso r x hhead
      have htake : (trust owned also).change s (s.takeFirst r) := change_takeFirst hhead halso
      obtain ⟨hs₁, hcommon, -⟩ := htake hs
      cases hr : s.reaction? r with
      | none =>
        cases runJob_spent hjobs hr hjob
        exact htake hs
      | some reaction =>
        obtain ⟨result', s₁, hhandler, rfl⟩ := runJob_react hjobs hr hjob
        have hk : s.handler? r = some reaction.handler := by rw [handler?, hr, Option.map_some]
        have hadmits : (trust owned also).Admits (s.takeFirst r) reaction.handler := by
          cases e : reaction.handler with
          | resumeBody m c code =>
            have hclaim : s.Claims owned c.promise (.body r) := ⟨m, c, code, e ▸ hk, rfl⟩
            exact hcommon _ (hs.common_of_ne hclaim fun k hk => by cases k <;> cases hk)
          | joined j n =>
            have hclaim : s.Claims owned (s.join j).capability.promise (.join j) :=
              ⟨hs.joined r j n (e ▸ hk), rfl⟩
            exact hcommon _ (hs.common_of_ne hclaim fun k hk => by cases k <;> cases hk)
          | bodyEnded m => trivial
          | passOn => trivial
          | callback code => trivial
          | imported m => trivial
        have hhandled := (h.carries hhost).runHandler
          (fun code e => absurd (hk.trans (congrArg some e)) (hcallback r x code hhead))
          (fun j _ _ _ hnew => change_setJoin _ j hnew) hadmits hhandler
        refine trust_composes.trans htake (trust_composes.trans hhandled ?_) hs
        cases hcap : reaction.capability with
        | none => exact trust_composes.refl s₁
        | some c =>
          have hc := hs.common_of_reaction hr hcap halso
          exact change_settle (h.track host hhost) s₁ result' ((hhandled hs₁).2.1 _ (hcommon _ hc))

end Machine

/-! ## Turns -/

/-- A scene in which promises are looked after, and in which no callback that is running has a claim
on them. -/
structure Scene.Sound (owned : σ → PromiseId → Prop) (also : PromiseId → Keeper → Prop)
    (c : Scene σ κ) : Prop where
  trusty : c.machine.Trusty owned also
  calls : ∀ d, some d ∈ c.calls → c.machine.Common also d.promise

/-- A turn that leaves entrusted promises alone. All tickets that it has made are open. -/
structure Scene.Passes (owned : σ → PromiseId → Prop) (also : PromiseId → Keeper → Prop)
    (c c' : Scene σ κ) : Prop where
  sound : c'.Sound owned also
  lasts : c.machine.Lasts c'.machine
  fresh : ∀ t : TicketId, c.machine.imports.size ≤ t.index →
    t.index < c'.machine.imports.size → ∃ i, c'.machine.import? t = some i

inductive KeeperTurn (hosts : Set (Host σ κ)) (also : PromiseId → Keeper → Prop) :
    Scene σ κ → Scene σ κ → Prop
  | redeem {s s' : Machine σ κ} {calls host p t found} : also p (.ticket t) → host ∈ hosts →
      host.finishImport t found s = some ((), s') → KeeperTurn hosts also ⟨s, calls⟩ ⟨s', calls⟩
  | job {s s' : Machine σ κ} {calls host p r x f m result} : also p (.reaction r f m) →
      s.jobs.head? = some (.react r x) → host ∈ hosts → runNextJob host s = some (result, s') →
        KeeperTurn hosts also ⟨s, calls⟩ ⟨s', calls⟩

variable {c c' : Scene σ κ}

theorem Scene.Sound.change {s s' : Machine σ κ} {calls : List (Option Capability)}
    (hc : Scene.Sound owned also ⟨s, calls⟩) (h : (trust owned also).change s s') :
    Scene.Passes owned also ⟨s, calls⟩ ⟨s', calls⟩ := by
  obtain ⟨hs, hcommon, hupholds⟩ := h hc.trusty
  exact ⟨⟨hs, fun d hd => hcommon _ (hc.calls d hd)⟩, hupholds.lasts, hupholds.tickets.fresh⟩

theorem Scene.Sound.finishImport (h : Observes hosts rank owned) (hhost : host ∈ hosts)
    {s s' : Machine σ κ} {calls : List (Option Capability)}
    (hc : Scene.Sound owned also ⟨s, calls⟩) {t : TicketId}
    (halso : ∀ p, ¬also p (.ticket t)) {found : Except Value ModuleId} {u : Unit}
    (hrun : host.finishImport t found s = some (u, s')) :
    Scene.Passes owned also ⟨s, calls⟩ ⟨s', calls⟩ := by
  cases hi : s.import? t with
  | none =>
    rw [finishImport_of_redeemed host found hi] at hrun
    cases hrun
    exact hc.change (trust_composes.refl s)
  | some i =>
    have htake := harmless_takeImport t halso hc.trusty
    have hload := change_redeemed h hhost hi (hc.trusty.common_takeImport hi halso) hrun
    have htaken : Scene.Sound owned also ⟨(s.takeImport t).2, calls⟩ :=
      ⟨htake.trusty hc.trusty, fun d hd => htake.common (hc.calls d hd)⟩
    obtain ⟨hs, hlasts, hfresh⟩ := htaken.change hload
    refine ⟨hs, (lasts_takeImport s t).trans hlasts, fun t' ht => hfresh t' ?_⟩
    exact (size_takeImport s t).le.trans ht

/-- A turn leaves entrusted promises alone, except for those of their keepers. -/
theorem Turn.passes (h : Observes hosts rank owned) (hturn : Turn hosts owned c c')
    (hc : c.Sound owned also) : c.Passes owned also c' ∨ KeeperTurn hosts also c c' := by
  cases hturn with
  | deed hd => exact .inl (hc.change (Deed.change (fun _ hhost => h.carries hhost) hd))
  | @finishImport s s' calls host t found hhost hrun =>
    by_cases hk : ∃ p, also p (.ticket t)
    · obtain ⟨p, hp⟩ := hk
      exact .inr (.redeem hp hhost hrun)
    · exact .inl (hc.finishImport h hhost (not_exists.1 hk) hrun)
  | @job s s' calls host result hhost hcallback himport hrun =>
    by_cases hk : ∃ r x p f m, s.jobs.head? = some (.react r x) ∧ also p (.reaction r f m)
    · obtain ⟨r, x, p, f, m, hr, hp⟩ := hk
      exact .inr (.job hp hr hhost hrun)
    · exact .inl (hc.change (change_job h hhost hcallback himport
        (fun r x hr p f m hp => hk ⟨r, x, p, f, m, hr, hp⟩) hrun))
  | @enter s calls r x code capability hhead hr =>
    -- A keeper runs no callback.
    have hnot : ∀ p f m, ¬also p (.reaction r f m) := fun p f m hp => by
      have hkept := (hc.trusty.entrusted p _ (.inl hp)).kept.1
      rw [hr] at hkept
      cases hkept
    obtain ⟨hc', hlasts, hfresh⟩ := hc.change (change_takeFirst hhead hnot)
    refine .inl ⟨⟨hc'.trusty, fun d hd => ?_⟩, hlasts, hfresh⟩
    obtain hd | hd := List.mem_cons.1 hd
    · have hcommon := hc.trusty.common_of_reaction hr hd.symm hnot
      exact (change_takeFirst hhead hnot hc.trusty).2.1 _ hcommon
    · exact hc'.calls d hd
  | @leave s calls d track result ht =>
    have hd : s.Common also d.promise := hc.calls d List.mem_cons_self
    have hrest : Scene.Sound owned also ⟨s, calls⟩ :=
      ⟨hc.trusty, fun d hd => hc.calls d (List.mem_cons_of_mem _ hd)⟩
    obtain ⟨hc', hlasts, hfresh⟩ := hrest.change (change_settle ht s result hd)
    exact .inl ⟨hc', hlasts, hfresh⟩
  | @drop s calls =>
    refine .inl ⟨⟨hc.trusty, fun d hd => hc.calls d (List.mem_cons_of_mem _ hd)⟩, .refl s,
      fun t ht ht' => absurd ht' (Nat.not_lt.2 ht)⟩
  | enterImport hhead =>
    obtain ⟨hc', hlasts, hfresh⟩ := hc.change (change_takeJob hhead fun _ _ e => nomatch e)
    exact .inl ⟨hc', hlasts, hfresh⟩

/-! ## Operations are made of turns -/

theorem Turns.of_deeds {s s' : Machine σ κ} {calls : List (Option Capability)}
    (hd : s.Deeds hosts owned s') : Turns hosts owned ⟨s, calls⟩ ⟨s', calls⟩ := by
  induction hd with
  | refl => exact .refl
  | tail _ hd ih => exact ih.tail (.deed hd)

/-- A dynamic import of a text opens a ticket, and then the host is told. -/
theorem importCall_text {s s' : Machine σ κ} {referrer : Referrer} {v : Value} {text : String}
    {p : PromiseId} (hv : v.text? = some text)
    (hrun : host.importCall referrer v s = some (p, s')) :
    p = s.nextPromise ∧ ∃ u, host.importRequested referrer text ⟨s.imports.size⟩
      (s.openImport referrer text) = some (u, s') := by
  rw [Host.importCall, Run.make_bind] at hrun
  obtain ⟨result, s₁, htext, hrun⟩ := Run.bind_eq_some.1 hrun
  rw [specifierText, hv] at htext
  cases htext
  dsimp only at hrun
  rw [Run.make_bind] at hrun
  obtain ⟨u, s₂, hrequested, hrun⟩ := Run.bind_eq_some.1 hrun
  cases hrun
  exact ⟨rfl, u, hrequested⟩

theorem Turns.of_importCall (h : Observes hosts rank owned) (hhost : host ∈ hosts)
    {s s' : Machine σ κ} {calls : List (Option Capability)} {referrer : Referrer} {v : Value}
    {p : PromiseId} (hrun : host.importCall referrer v s = some (p, s')) :
    Turns hosts owned ⟨s, calls⟩ ⟨s', calls⟩ := by
  cases hv : v.text? with
  | some text =>
    obtain ⟨-, u, hrequested⟩ := importCall_text hv hrun
    exact .head (.deed (.openImport s referrer text)) (h.requested host hhost calls hrequested)
  | none =>
    -- The host could have made the error object first, and then the promise.
    rw [Host.importCall, Run.make_bind] at hrun
    obtain ⟨result, s₁, htext, hrun⟩ := Run.bind_eq_some.1 hrun
    rw [specifierText, hv] at htext
    cases htext
    cases hrun
    have herror : s.Deed hosts owned
        (s.newError .typeError "Cannot convert object to primitive value").2 :=
      .apart ⟨rfl, rfl, rfl, rfl, rfl, fun _ _ hm => hm, fun _ hp => hp⟩
    exact .head (.deed herror) (.single (.deed
      (.newSettled _ (.error (.error ⟨s.errors.size⟩)) (h.track host hhost))))

/-- A job and what it does are turns. -/
theorem Turns.of_runNextJob (h : Observes hosts rank owned) (hhost : host ∈ hosts)
    {s s' : Machine σ κ} (calls : List (Option Capability)) {result : Except Value Bool}
    (hrun : runNextJob host s = some (result, s')) :
    Turns hosts owned ⟨s, calls⟩ ⟨s', calls⟩ := by
  by_cases hreact : ∃ r x code, s.jobs.head? = some (.react r x) ∧
      s.handler? r = some (.callback code)
  · obtain ⟨r, x, code, hhead, hk⟩ := hreact
    obtain ⟨rest, hjobs⟩ := List.head?_eq_some_iff.1 hhead
    obtain ⟨⟨handler, capability⟩, hr, rfl⟩ := Option.map_eq_some_iff.1 hk
    obtain ⟨result', hjob⟩ := runNextJob_job hjobs hrun
    obtain ⟨result', s₁, hcall, rfl⟩ := runJob_react hjobs hr hjob
    refine .head (.enter hhead hr) ((h.call host hhost _ hcall).tail ?_)
    cases capability with
    | none => exact .drop
    | some c => exact .leave result' (h.track host hhost)
  by_cases himport : ∃ referrer specifier ticket,
      s.jobs.head? = some (.finishImport referrer specifier ticket)
  · obtain ⟨referrer, specifier, ticket, hhead⟩ := himport
    obtain ⟨rest, hjobs⟩ := List.head?_eq_some_iff.1 hhead
    obtain ⟨result', hjob⟩ := runNextJob_job hjobs hrun
    refine .head (.enterImport hhead) ?_
    rw [hjobs, List.tail_cons]
    obtain ⟨found, s₁, hresolve, hjob⟩ | ⟨e, hresolve, -⟩ := throwing_bind.1 hjob
    · obtain ⟨_, hfound, hresolve⟩ := Act.ofRun_eq_some.1 hresolve
      cases hfound
      obtain ⟨_, -, hfinish⟩ := Act.ofRun_eq_some.1 hjob
      have hdeeds := (h.chores host hhost).resolve referrer specifier _ _ _ hresolve
      have hturns : Turns hosts owned ⟨_, calls⟩ ⟨s₁, calls⟩ :=
        .of_deeds (ReflTransGen.mono (fun _ _ => Deed.mono fun _ hb => hb.1) _ _ hdeeds)
      exact hturns.tail (.finishImport hhost hfinish)
    · obtain ⟨_, he, _⟩ := Act.ofRun_eq_some.1 hresolve
      cases he
  · exact .single (.job hhost (fun r x code hhead hk => hreact ⟨r, x, code, hhead, hk⟩)
      (fun _ _ _ hhead => himport ⟨_, _, _, hhead⟩) hrun)

theorem Turns.of_runJobs (h : Observes hosts rank owned) (hhost : host ∈ hosts) {s s' : Machine σ κ}
    {calls : List (Option Capability)} {result : Except Value Unit}
    (hrun : host.runJobs s = some (result, s')) : Turns hosts owned ⟨s, calls⟩ ⟨s', calls⟩ := by
  rw [Host.runJobs] at hrun
  generalize host.depth = count at hrun
  induction count generalizing s with
  | zero => cases hrun
  | succ count ih =>
    rw [drain] at hrun
    obtain ⟨more, s₁, hjob, hrun⟩ | ⟨e, hjob, -⟩ := throwing_bind.1 hrun
    · have hturns := Turns.of_runNextJob h hhost calls hjob
      cases more with
      | true => exact hturns.trans (ih hrun)
      | false =>
        cases hrun
        exact hturns
    · exact Turns.of_runNextJob h hhost calls hjob

end ModuleGraph

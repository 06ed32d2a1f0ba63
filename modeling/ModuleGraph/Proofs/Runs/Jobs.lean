import ModuleGraph.Proofs.Operations.Jobs
import ModuleGraph.Proofs.Runs.Link
import ModuleGraph.Proofs.Runs.Ready

/-! # Jobs and runs

A job takes its reaction, runs the handler and settles the capability. The handlers of bodies go on
with an evaluation; all others make calls, or moves of the host. A machine at which no evaluation is
going on is left so by each step of a run. -/

namespace ModuleGraph

open Relation

variable {σ κ : Type} {journal : σ → Journal} {owner : κ → ModuleId} {reserved : Set PromiseId}
variable {hosts : Set (Host σ κ)} {host : Host σ κ}

namespace Handler

def ended : Handler κ → List ModuleId
  | .bodyEnded m => [m]
  | .passOn | .callback _ | .resumeBody .. | .imported _ | .joined .. => []

def resumed : Handler κ → Option (ModuleId × PromiseId)
  | .resumeBody m c _ => some (m, c.promise)
  | .passOn | .callback _ | .bodyEnded _ | .imported _ | .joined .. => none

end Handler

namespace Machine

variable {s s' : Machine σ κ} {o : Focus} {m x : ModuleId} {p : PromiseId} {r : ReactionId}
variable {c : Capability}
variable {known : Finding → Prop} {spare spare' : PromiseId → Prop}

/-! ## Promises that may be settled -/

theorem Coherent.maySettle (h : s.Coherent journal owner reserved o)
    (hp : s.IsTarget p ∨ o.spare p) : s.MaySettle reserved p :=
  have hf := h.wired.targets p hp
  ⟨hf.made, hf.body, hf.answer⟩

theorem Resting.calls (hc : Conduct journal owner reserved hosts)
    (h : s.Resting journal owner reserved known spare)
    (hcalls : Calls journal reserved hosts s s') :
    s'.Resting journal owner reserved known spare := by
  induction hcalls with
  | refl => exact h
  | tail _ hcall ih => exact ih.call hc hcall

theorem Resting.settle (hc : Conduct journal owner reserved hosts) (hh : host ∈ hosts)
    (h : s.Resting journal owner reserved known spare) {c : Capability}
    (hp : s.IsTarget c.promise ∨ spare c.promise) (result : Except Value Value) :
    (s.settle host.track c result).Resting journal owner reserved known spare :=
  h.call hc (.settle s result hh (h.coherent.maySettle hp))

/-! ## Moves -/

theorem LinkSteps.has (hc : Conduct journal owner reserved hosts)
    (h : LinkSteps journal reserved hosts s s') (hm : s.Has m) : s'.Has m := by
  induction h with
  | refl => exact hm
  | tail _ hstep ih =>
    cases hstep with
    | call hcall => exact (quiet_of_call hc.track hcall).has ih
    | update hi hr => exact (refields_relink hi hr).has_iff m |>.2 ih

theorem elsewhere_takeImport (journal : σ → Journal) (s : Machine σ κ) (t : TicketId) :
    s.Elsewhere journal (s.takeImport t).2 := by
  rw [takeImport]
  split
  · refine .of_beside ⟨rfl, rfl, rfl, .refl s⟩ rfl rfl ⟨rfl, fun _ => rfl⟩ (fun t' i hi => ?_) rfl
    simp only [import?, Array.getElem?_setIfInBounds] at hi ⊢
    split at hi
    · split at hi <;> cases hi
    · exact hi
  · exact .of_beside ⟨rfl, rfl, rfl, .refl s⟩ rfl rfl ⟨rfl, fun _ => rfl⟩ (fun _ _ hi => hi) rfl

/-- The module of a dynamic import is linked and evaluated. -/
theorem Resting.loadImported (hc : Conduct journal owner reserved hosts) (hh : host ∈ hosts)
    (h : s.Resting journal owner reserved known spare) (hm : s.Has m) {c : Capability}
    (hp : spare c.promise) (hrun : host.loadImported c m s = some ((), s')) :
    s'.Bearing journal owner reserved known spare := by
  obtain ⟨result, s₁, hlink, hrun⟩ := Run.bind_eq_some.1 hrun
  have h₁ := h.link hc hh hm hlink
  cases result with
  | error e =>
    obtain ⟨v, s₂, hvalue, hrun⟩ := Run.bind_eq_some.1 hrun
    have h₂ : s₂.Resting journal owner reserved known spare := by
      cases he : e.fault.thrown? with
      | some v' =>
        rw [LinkError.toValue, he] at hvalue
        cases hvalue
        exact h₁
      | none =>
        rw [LinkError.toValue, he] at hvalue
        cases hvalue
        exact h₁.call hc (.elsewhere (.newError ..))
    cases hrun
    exact (h₂.settle hc hh (.inr hp) (.error v)).bearing
  | ok =>
    obtain ⟨q, s₂, heval, hrun⟩ := Run.bind_eq_some.1 hrun
    have hm₁ := (link_steps hc hh hm hlink).1.has hc hm
    obtain ⟨e, h₂⟩ := (evaluate_ends hc hh h₁ hm₁ heval).resting
    cases hrun
    refine ⟨e, h₂.call hc (.attach s₂ q hh ⟨id, (fun _ _ e => by cases e), fun c' hc' => ?_⟩)⟩
    cases hc'
    exact h₂.coherent.maySettle (.inr hp)

theorem Resting.finishImport (hc : Conduct journal owner reserved hosts) (hh : host ∈ hosts)
    (h : s.Resting journal owner reserved known spare) {t : TicketId}
    {found : Except Value ModuleId} (hfound : ∀ m, found = .ok m → s.Has m)
    (hrun : host.finishImport t found s = some ((), s')) :
    s'.Bearing journal owner reserved known spare := by
  rw [Host.finishImport, Run.make_bind] at hrun
  have hcall : Call journal reserved hosts s (s.takeImport t).2 :=
    .elsewhere (elsewhere_takeImport journal s t)
  cases hi : s.import? t with
  | none =>
    have h₁ := h.call hc hcall
    rw [takeImport, hi] at hrun h₁
    cases hrun
    exact h₁.bearing
  | some i =>
    -- Nothing but this computation has the capability from now on.
    have hspare : ∀ p, spare p ∨ p = i.capability.promise → s.IsTarget p ∨ spare p := by
      rintro p (hp | rfl)
      · exact .inr hp
      · exact .inl (.inr (.inr (.inl ⟨t, i, hi, rfl⟩)))
    have h₁ := (h.respare h.coherent.known hspare).call hc hcall
    rw [takeImport, hi] at hrun h₁
    have hend : s'.Bearing journal owner reserved known fun p =>
        spare p ∨ p = i.capability.promise := by
      cases found with
      | error e =>
        cases hrun
        exact (h₁.settle hc hh (.inr (.inr rfl)) (.error e)).bearing
      | ok m => exact h₁.loadImported hc hh (hfound m rfl) (.inr rfl) hrun
    exact hend.mono fun _ => .inl

/-- A move of the host leaves no evaluation going on. -/
theorem Resting.move (hc : Conduct journal owner reserved hosts)
    (h : s.Resting journal owner reserved known spare) (hmove : Move journal reserved hosts s s') :
    s'.Bearing journal owner reserved known spare := by
  cases hmove with
  | call hcall => exact (h.call hc hcall).bearing
  | link hh hm hrun => exact (h.link hc hh hm hrun).bearing
  | evaluate hh hm hrun => exact (evaluate_ends hc hh h hm hrun).resting
  | finishImport hh hfound hrun => exact h.finishImport hc hh hfound hrun

theorem Resting.moves (hc : Conduct journal owner reserved hosts)
    (hk : ∀ f, known f → f.IsLasting) (h : s.Resting journal owner reserved known spare)
    (hmoves : ReflTransGen (Move journal reserved hosts) s s') :
    s'.Resting journal owner reserved known spare := by
  induction hmoves with
  | refl => exact h
  | tail _ hmove ih => exact (ih.move hc hmove).resting hk

/-! ## Taking a job -/

/-- The reaction of the first job is taken. If it tells the end of a body then the module is not due
any more; if it is the rest of a body then this body is about to run. -/
theorem Resting.takeFirst (h : s.Resting journal owner reserved known spare) {x : Settlement}
    {rest : List Job} (hjobs : s.jobs = .react r x :: rest)
    (hspare : ∀ p, spare' p → s.IsTarget p ∨ spare p) :
    ((s.takeFirst r).graph journal .rest).Sound ∧ (s.takeFirst r).Coherent journal owner reserved
      { Focus.rest known spare' with
        excused := (s.handler? r).elim [] Handler.ended
        busy := (s.handler? r).bind Handler.resumed } := by
  have hb : s.Beside journal (s.takeFirst r) := ⟨rfl, rfl, rfl, .refl s⟩
  have hdue : ∀ m, s.Due ((s.handler? r).elim [] Handler.ended) m →
      s.Due [] m ∧ s.handler? r ≠ some (.bodyEnded m) := fun m hm => by
    refine ⟨⟨hm.1, hm.2.1, hm.2.2.1, List.not_mem_nil⟩, fun hr => hm.2.2.2 ?_⟩
    rw [hr]
    exact List.mem_singleton_self m
  have htell : ∀ m, s.MayTell [] m → s.handler? r ≠ some (.bodyEnded m) →
      s.MayTell ((s.handler? r).elim [] Handler.ended) m := fun m hm hr => by
    refine ⟨hm.begun, hm.failed, fun hmem => ?_⟩
    cases hk : s.handler? r with
    | none =>
      rw [hk] at hmem
      cases hmem
    | some k =>
      rw [hk] at hmem
      cases k with
      | bodyEnded x =>
        obtain rfl := List.mem_singleton.1 hmem
        exact hr hk
      | passOn | callback | resumeBody | imported | joined => cases hmem
  have hbusy : ∀ m p, (s.handler? r).bind Handler.resumed = some (m, p) →
      s.Carries (s.circuit journal reserved (.rest known spare)) m p := fun m p hmp => by
    obtain ⟨k, hk, hkmp⟩ := Option.bind_eq_some_iff.1 hmp
    cases k with
    | resumeBody m' c code =>
      cases hkmp
      exact (h.coherent.wired.resumed r m c code hk).toCarries
    | passOn | callback | bodyEnded | imported | joined => cases hkmp
  refine ⟨(Quiet.of_beside hb fun _ _ hx => hx).sound h.sound, h.coherent.beside hb rfl ?_
    (fun _ hp => hp) (fun _ _ hx => hx) fun _ _ _ hp => hp⟩
  exact h.coherent.wired.takeFirst hjobs htell hdue rfl (fun m c code hr => by rw [hr]; rfl) hbusy
    fun p hp => h.coherent.wired.targets p (hspare p hp)

theorem Resting.takeJob (h : s.Resting journal owner reserved known spare) {job : Job}
    {rest : List Job} (hjobs : s.jobs = job :: rest) (hjob : ∀ r x, job ≠ .react r x) :
    ({ s with jobs := rest } : Machine σ κ).Resting journal owner reserved known spare := by
  have hb : s.Beside journal { s with jobs := rest } := ⟨rfl, rfl, rfl, .refl s⟩
  exact ⟨(Quiet.of_beside hb fun _ _ hx => hx).sound h.sound, h.coherent.beside hb rfl
    (h.coherent.wired.takeJob hjobs hjob) (fun _ hp => hp) (fun _ _ hx => hx) fun _ _ _ hp => hp⟩

/-! ## Handlers -/

theorem Resting.working (hs : (s.graph journal .rest).Sound)
    (hc : s.Coherent journal owner reserved o)
    (hi : o.Idle) (hl : o.late = []) : s.Working journal owner reserved o [] [] [] [] :=
  ⟨hs, hc, hi, fun x ⟨c, hx⟩ => by rw [hl] at hx; cases hx⟩

theorem calls_joinFulfilled (hh : host ∈ hosts) {j : JoinId}
    (hj : s.MaySettle reserved (s.join j).capability.promise) (k : Nat) (v : Value) :
    Calls journal reserved hosts s (s.joinFulfilled host.track j k v) := by
  set new : Join := { s.join j with
    remaining := (s.join j).remaining - 1, values := (s.join j).values.set k v } with hnew
  set s₁ : Machine σ κ := { s with joins := s.joins.setIfInBounds j.index new } with hs₁
  have hcapability : ∀ i, (s₁.join i).capability = (s.join i).capability :=
    capability_setJoin s j rfl
  have h₁ : Call journal reserved hosts s s₁ :=
    .elsewhere (.of_beside ⟨rfl, rfl, rfl, .refl s⟩ rfl rfl
    ⟨Array.size_setIfInBounds, hcapability⟩ (fun _ _ hi => hi) rfl)
  rw [joinFulfilled]
  dsimp only
  split
  · have h₂ : Call journal reserved hosts s₁ (s₁.newObject (.ofList new.values)).2 :=
      .elsewhere (.of_beside ⟨rfl, rfl, rfl, .refl s⟩ rfl rfl ⟨rfl, fun _ => rfl⟩
        (fun _ _ hi => hi) rfl)
    exact ((ReflTransGen.single h₁).tail h₂).tail
      (.settle _ (.ok (.object (s₁.newObject (.ofList new.values)).1)) hh
        ⟨hj.made, hj.body, hj.answer⟩)
  · exact .single h₁

theorem runHandler_ends (hc : Conduct journal owner reserved hosts) (hh : host ∈ hosts)
    (h : s.Resting journal owner reserved known spare) {handler : Handler κ} {x : Settlement}
    (hk : ∀ code, handler = .callback code → ∀ f, known f → f.IsLasting)
    (hbody : ¬handler.isOfBody)
    (hjoined : ∀ j k, handler = .joined j k → s.MaySettle reserved (s.join j).capability.promise)
    {result : Except Value Value} (hrun : runHandler host handler x s = some (result, s')) :
    s'.Resting journal owner reserved known spare := by
  cases handler with
  | passOn =>
    rw [runHandler, Act.ofExcept_apply] at hrun
    cases hrun
    exact h
  | callback code => exact h.moves hc (hk code rfl) (hc.call host hh hrun)
  | bodyEnded m => exact (hbody trivial).elim
  | resumeBody m c code => exact (hbody trivial).elim
  | imported m =>
    cases x with
    | fulfilled v => exact h.calls hc ((calls_looksUp hc hh).namespaceOf m _ _ _ hrun)
    | rejected e =>
      cases hrun
      exact h
  | joined j k =>
    have hj := hjoined j k rfl
    cases x with
    | fulfilled v =>
      cases hrun
      exact h.calls hc (calls_joinFulfilled hh hj k v)
    | rejected e =>
      cases hrun
      exact h.call hc (.settle s (.error e) hh hj)

/-- What a handler leaves that tells the end of a body. -/
theorem bodyEnded_ends (hc : Conduct journal owner reserved hosts) (hh : host ∈ hosts)
    (h : s.Working journal owner reserved { o with excused := [m] } [] [] [] []) (hm : s.Begun m)
    {x : Settlement} (hx : s.MayEnd journal m x) {result : Except Value Value}
    (hrun : runHandler host (.bodyEnded m) x s = some (result, s')) :
    s'.Working journal owner reserved { o with excused := [] } [] [] [] [] := by
  cases x with
  | fulfilled v =>
    obtain ⟨⟨⟩, s₁, hbody, hrun⟩ | ⟨e, hbody, -⟩ := throwing_bind.1 hrun
    · obtain ⟨⟨⟩, -, hbody⟩ := Act.ofRun_eq_some.1 hbody
      cases hrun
      exact bodySucceeded_ends hc hh h hm hx hbody
    · obtain ⟨_, he, _⟩ := Act.ofRun_eq_some.1 hbody
      cases he
  | rejected e =>
    cases hrun
    have hmi : ¬(s.cyclic m).status.IsIdle := fun hi => hm.2.1 ((h.sound.shaped m).idle hi).1.2.2.1
    obtain hs | hs := h.awake hmi
    · have hf := bodyFailed_ends hc hh h ⟨Throws.blames hx, .inl hs⟩
      have hempty : ∀ x, x ∈ ([] : List ModuleId) ↔ x ∈ ([] : List ModuleId) ∧ x ≠ m := fun x =>
        (and_iff_left_of_imp fun hx => nomatch hx).symm
      exact hf.skip (hf.all m (List.mem_singleton_self m)) hempty hempty
        (fun x hx => .inl (List.mem_singleton.1 hx)) fun _ hx => nomatch hx
    · have hsame : s.bodyFailed host m e = s := if_pos hs
      change (s.bodyFailed host m e).Working journal owner reserved _ [] [] [] []
      rw [hsame]
      exact h.excuse_evaluated hs

theorem resumeBody_ends (hc : Conduct journal owner reserved hosts) (hh : host ∈ hosts)
    (hs : (s.graph journal .rest).Sound)
    (h : s.Coherent journal owner reserved { o with busy := some (m, c.promise) }) {code : κ}
    (howner : owner code = m) (hstarted : (journal s.host).starts m ≠ 0)
    (hstrict : c.mustBeUnresolved = true) {x : Settlement} {result : Except Value Value}
    (hrun : runHandler host (.resumeBody m c code) x s = some (result, s')) :
    (s'.graph journal .rest).Sound ∧
      s'.Coherent journal owner reserved { o with busy := none } := by
  obtain ⟨r, s₁, hresume, hrun⟩ | ⟨e, hresume, -⟩ := throwing_bind.1 hrun
  · obtain ⟨_, hr', hresume⟩ := Act.ofRun_eq_some.1 hresume
    cases hr'
    cases hrun
    have hp := hc.resume host hh hresume
    rw [howner] at hp
    have h₁ := hp.coherent hc h hstarted
    have hs₁ := (hp.calm hc hs).sound hs
    refine ⟨(quiet_continueBody hc hh s₁ m c r).sound hs₁, h₁.continueBody hc hh rfl hstrict
      hp.ended (fun e he => hp.threw he) fun p code' hw => ?_⟩
    obtain ⟨howner', hmade⟩ := hp.waits p code' hw
    exact ⟨howner', hmade, by rwa [hp.starts hc]⟩
  · obtain ⟨_, he, _⟩ := Act.ofRun_eq_some.1 hresume
    cases he

/-! ## Jobs -/

/-- The reaction of a job is run. Its capability, if it has one, is spare until it is settled. -/
theorem react_ends (hc : Conduct journal owner reserved hosts) (hh : host ∈ hosts)
    (h : s.Resting journal owner reserved known spare) {x : Settlement} {rest : List Job}
    (hjobs : s.jobs = .react r x :: rest) {reaction : Reaction κ}
    (hr : s.reaction? r = some reaction)
    (hk : ∀ code, reaction.handler = .callback code → ∀ f, known f → f.IsLasting)
    {result : Except Value Value}
    (hrun : runHandler host reaction.handler x (s.takeFirst r) = some (result, s')) :
    s'.Resting journal owner reserved known fun p =>
      spare p ∨ ∃ c, reaction.capability = some c ∧ c.promise = p := by
  have hhandler : s.handler? r = some reaction.handler := by rw [Machine.handler?, hr]; rfl
  have hspare : ∀ p, (spare p ∨ ∃ c, reaction.capability = some c ∧ c.promise = p) →
      s.IsTarget p ∨ spare p := by
    rintro p (hp | ⟨c, hc, rfl⟩)
    · exact .inr hp
    · exact .inl (.inl ⟨r, reaction, c, hr, hc, rfl⟩)
  have hwired := h.coherent.wired
  obtain ⟨hs, hcoh⟩ := h.takeFirst hjobs hspare
  rw [hhandler] at hcoh
  cases hk' : reaction.handler with
  | bodyEnded m =>
    rw [hk'] at hrun hhandler hcoh
    have hw := bodyEnded_ends hc hh (Resting.working hs hcoh ⟨rfl, rfl, id⟩ rfl)
      (hwired.begun r m hhandler).begun
      (hwired.told r x m (by rw [hjobs]; exact List.mem_cons_self) hhandler) hrun
    exact ⟨hw.sound, hw.coherent⟩
  | resumeBody m c code =>
    rw [hk'] at hrun hhandler hcoh
    have hresumes := hwired.resumed r m c code hhandler
    obtain ⟨hs', hcoh'⟩ := resumeBody_ends hc hh hs hcoh hresumes.owner hresumes.started
      hresumes.strict hrun
    exact ⟨hs', hcoh'⟩
  | passOn =>
    rw [hk'] at hrun hcoh
    exact runHandler_ends hc hh ⟨hs, hcoh⟩ (fun code e => hk code (hk'.trans e)) id
      (fun _ _ e => by cases e) hrun
  | callback code =>
    rw [hk'] at hrun hcoh
    exact runHandler_ends hc hh ⟨hs, hcoh⟩ (fun code e => hk code (hk'.trans e)) id
      (fun _ _ e => by cases e) hrun
  | imported m =>
    rw [hk'] at hrun hcoh
    exact runHandler_ends hc hh ⟨hs, hcoh⟩ (fun code e => hk code (hk'.trans e)) id
      (fun _ _ e => by cases e) hrun
  | joined j k =>
    rw [hk'] at hrun hcoh hhandler
    refine runHandler_ends hc hh ⟨hs, hcoh⟩ (fun code e => hk code (hk'.trans e)) id
      (fun _ _ e => ?_) hrun
    cases e
    exact hcoh.maySettle (.inl (.inr (.inl ⟨j, hwired.joined r j k hhandler, rfl⟩)))

theorem runJob_ends (hc : Conduct journal owner reserved hosts) (hh : host ∈ hosts)
    (h : s.Resting journal owner reserved known spare) {job : Job} {rest : List Job}
    (hjobs : s.jobs = job :: rest)
    (hk : ∀ r x code, job = .react r x → s.handler? r = some (.callback code) →
      ∀ f, known f → f.IsLasting)
    {result : Except Value Unit}
    (hrun : runJob host job { s with jobs := rest } = some (result, s')) :
    s'.Bearing journal owner reserved known spare := by
  cases job with
  | adopt q followed =>
    have h₁ := h.takeJob hjobs fun _ _ e => nomatch e
    cases hrun
    have hq := h.coherent.maySettle (p := q) (.inl (.inr (.inr (.inr ⟨followed, by
      rw [hjobs]
      exact List.mem_cons_self⟩))))
    refine Resting.bearing (h₁.call hc (.attach _ followed hh
      ⟨id, (fun _ _ e => nomatch e), fun c hc' => ?_⟩))
    cases hc'
    exact ⟨hq.made, hq.body, hq.answer⟩
  | finishImport referrer specifier ticket =>
    have h₁ := h.takeJob hjobs fun _ _ e => nomatch e
    obtain ⟨found, s₁, hresolve, hrun⟩ | ⟨e, hresolve, -⟩ := throwing_bind.1 hrun
    · obtain ⟨_, hfound, hresolve⟩ := Act.ofRun_eq_some.1 hresolve
      cases hfound
      obtain ⟨_, -, hrun⟩ := Act.ofRun_eq_some.1 hrun
      have h₂ := h₁.calls hc (hc.resolve host hh referrer specifier _ _ _ hresolve)
      refine h₂.finishImport hc hh (fun m hm => ?_) hrun
      rw [hm] at hresolve
      exact (hc.found host hh hresolve).1
    · obtain ⟨_, he, _⟩ := Act.ofRun_eq_some.1 hresolve
      cases he
  | react r x =>
    cases hr : s.reaction? r with
    | none =>
      cases runJob_spent hjobs hr hrun
      obtain ⟨hs, hcoh⟩ := h.takeFirst hjobs fun p hp => .inr hp
      rw [Machine.handler?, hr] at hcoh
      exact Resting.bearing ⟨hs, hcoh⟩
    | some reaction =>
      obtain ⟨result', s₁, hhandler, rfl⟩ := runJob_react hjobs hr hrun
      have h₁ := react_ends hc hh h hjobs hr
        (fun code e => hk r x code rfl (by rw [Machine.handler?, hr, Option.map_some, e])) hhandler
      have hend : (reaction.capability.elim s₁ fun c => s₁.settle host.track c result').Resting
          journal owner reserved known fun p =>
            spare p ∨ ∃ c, reaction.capability = some c ∧ c.promise = p := by
        cases hcap : reaction.capability with
        | none =>
          rw [hcap] at h₁
          exact h₁
        | some c =>
          rw [hcap] at h₁
          exact h₁.settle hc hh (.inr (.inr ⟨c, rfl, rfl⟩)) result'
      exact hend.bearing.mono fun _ => .inl

theorem runNextJob_ends (hc : Conduct journal owner reserved hosts) (hh : host ∈ hosts)
    (h : s.Resting journal owner reserved known spare)
    (hk : ∀ r x code, s.jobs.head? = some (.react r x) → s.handler? r = some (.callback code) →
      ∀ f, known f → f.IsLasting)
    {result : Except Value Bool} (hrun : runNextJob host s = some (result, s')) :
    s'.Bearing journal owner reserved known spare := by
  cases hjobs : s.jobs with
  | nil =>
    rw [runNextJob, Act.make_bind, takeJob, hjobs] at hrun
    cases hrun
    exact h.bearing
  | cons job rest =>
    obtain ⟨result', hjob⟩ := runNextJob_job hjobs hrun
    exact runJob_ends hc hh h hjobs
      (fun r x code e => hk r x code (by rw [hjobs, e, List.head?_cons])) hjob

/-! ## Runs -/

/-- The reaction of a callback is taken, to run outside of the queue. -/
theorem Resting.enter (h : s.Resting journal owner reserved known spare) {x : Settlement} {code : κ}
    (hjobs : s.jobs.head? = some (.react r x)) (hr : s.handler? r = some (.callback code)) :
    (s.takeFirst r).Resting journal owner reserved known spare := by
  obtain ⟨rest, hjobs⟩ := List.head?_eq_some_iff.1 hjobs
  obtain ⟨hs, hcoh⟩ := h.takeFirst hjobs fun p hp => .inr hp
  rw [hr] at hcoh
  exact ⟨hs, hcoh⟩

theorem Resting.enterImport (h : s.Resting journal owner reserved known spare) {referrer : Referrer}
    {specifier : String} {ticket : TicketId}
    (hjobs : s.jobs.head? = some (.finishImport referrer specifier ticket)) :
    ({ s with jobs := s.jobs.tail } : Machine σ κ).Resting journal owner reserved known spare := by
  obtain ⟨rest, hjobs⟩ := List.head?_eq_some_iff.1 hjobs
  rw [hjobs]
  exact h.takeJob hjobs fun _ _ e => nomatch e

/-- A step of a run leaves no evaluation going on. -/
theorem Resting.step (hc : Conduct journal owner reserved hosts)
    (hk : ∀ f, known f → f.IsLasting)
    (h : s.Resting journal owner reserved known fun _ => False)
    (hstep : Step journal reserved hosts s s') :
    s'.Resting journal owner reserved known fun _ => False := by
  cases hstep with
  | move hmove => exact (h.move hc hmove).resting hk
  | job hh hrun => exact (runNextJob_ends hc hh h (fun _ _ _ _ _ => hk) hrun).resting hk
  | enter hjobs hr => exact h.enter hjobs hr
  | enterImport hjobs => exact h.enterImport hjobs

theorem Resting.steps (hc : Conduct journal owner reserved hosts)
    (hk : ∀ f, known f → f.IsLasting)
    (h : s.Resting journal owner reserved known fun _ => False)
    (hsteps : ReflTransGen (Step journal reserved hosts) s s') :
    s'.Resting journal owner reserved known fun _ => False := by
  induction hsteps with
  | refl => exact h
  | tail _ hstep ih => exact ih.step hc hk hstep

/-! ## Machines that runs start with -/

/-- Nothing was evaluated or asked for yet, and nothing but modules was made. -/
structure Unevaluated (journal : σ → Journal) (s : Machine σ κ) : Prop where
  idle : ∀ x, (s.cyclic x).status.IsIdle
  fresh : ∀ x, (s.cyclic x).IsFresh
  capability : ∀ x, (s.cyclic x).capability = none
  leaf : ∀ m p, (s.module m).kind.leaf? ≠ some (.evaluated p)
  promises : s.promises = #[]
  reactions : s.reactions = #[]
  joins : s.joins = #[]
  imports : s.imports = #[]
  jobs : s.jobs = []
  answers : (journal s.host).Answers

namespace Unevaluated

theorem sound (h : s.Unevaluated journal) : (s.graph journal .rest).Sound := by
  set g := s.graph journal .rest with hg
  have hfresh : ∀ x, (g.fields x).IsFresh := h.fresh
  have hidle : ∀ x, (g.fields x).status.IsIdle := h.idle
  have hstarts : ∀ x, g.starts x = 0 := h.answers.starts_eq
  have hturn : ∀ x k, (g.fields x).order ≠ .turn k := fun x k hk => by
    rw [(hfresh x).2.2.1] at hk
    cases hk
  have hroot : ∀ x q, (g.fields x).root ≠ some q := fun x q hq => by
    rw [(hfresh x).2.1] at hq
    cases hq
  have hparents : ∀ d x, x ∉ (g.fields d).parents := fun d x hx => by
    rw [(hfresh d).2.2.2] at hx
    cases hx
  have hawake : ∀ x,
      ¬((g.fields x).status = .evaluating ∨ (g.fields x).status = .evaluatingAsync) :=
    fun x hx => hx.elim (fun e => Status.awake_of_evaluating e (hidle x))
      fun e => Status.awake_of_evaluatingAsync e (hidle x)
  exact
    { nodup := List.nodup_nil
      open_iff := fun x => ⟨fun hx => (hawake x (.inl hx)).elim, fun hx => nomatch hx⟩
      shaped := fun x =>
        { idle := fun _ => ⟨hfresh x, fun _ => hstarts x⟩
          opened := fun hx => (hawake x (.inl hx)).elim
          waiting := fun hx => (hawake x (.inr hx)).elim
          complete := fun hx => (Status.awake_of_evaluated hx (hidle x)).elim
          unset := fun _ => (hfresh x).2.2.2
          turn := fun k hk => (hturn x k hk).elim
          unstarted := fun _ _ _ => hstarts x
          failed := fun hf => (hf (hfresh x).1).elim
          done := fun hd => by
            rw [(hfresh x).2.2.1] at hd
            cases hd
          sized := fun hi => (hi (hidle x)).elim
          once := fun hi => (hi (hidle x)).elim
          blamed := fun e he => by
            rw [(hfresh x).1] at he
            cases he }
      distinct := fun x _ k hk => (hturn x k hk).elim
      awaits := fun d x hx => (hparents d x hx).elim
      balanced := fun x hx => (hawake x hx).elim
      member := fun x q hq => (hroot x q hq).elim
      settled := fun x q hq => (hroot x q hq).elim
      separate := fun _ x _ p _ hp => (hroot x p hp).elim
      ready := fun _ hx => nomatch hx
      running := fun x ho => by
        obtain ⟨k, hk⟩ := AsyncOrder.exists_turn ho
        exact (hturn x k hk).elim }

/-- What is linked has to be so with all that it requests. -/
theorem coherent (h : s.Unevaluated journal) (hlinked : s.LinkClosed journal) :
    s.Coherent journal owner reserved (.rest (fun _ => False) fun _ => False) := by
  have hreaction : ∀ r, s.reaction? r = none := fun _ => by
    rw [reaction?, h.reactions]
    rfl
  have hhandler : ∀ r k, s.handler? r ≠ some k := fun r _ e => by
    rw [Machine.handler?, hreaction] at e
    cases e
  have hmade : ∀ p, ¬s.Made p := fun p => by
    rw [Made, h.promises]
    exact Nat.not_lt_zero _
  have hholds : ∀ p r, ¬s.Holds p r := fun p _ hr => hmade p (made_of_holds hr)
  have hbody : ∀ p m, ¬s.IsBody p m := fun p _ hp => hp.elim fun r hr => hholds p r hr.1
  have hjob : ∀ job, job ∉ s.jobs := fun job => by
    rw [h.jobs]
    exact List.not_mem_nil
  have hcapability : ∀ m c, (s.cyclic m).capability ≠ some c := fun m c hc => by
    rw [h.capability m] at hc
    cases hc
  have hended : ∀ m, Entry.ended m ∉ journal s.host := fun m hm =>
    Bool.noConfusion (h.answers _ hm)
  have hstarts : ∀ m, (journal s.host).starts m = 0 := h.answers.starts_eq
  have htarget : ∀ p, ¬s.IsTarget p := by
    rintro p (⟨r, reaction, _, hr, -⟩ | ⟨j, hj, -⟩ | ⟨t, i, hi, -⟩ | ⟨q, hq⟩)
    · rw [hreaction] at hr
      cases hr
    · rw [h.joins] at hj
      exact Nat.not_lt_zero _ hj
    · rw [import?, h.imports] at hi
      cases hi
    · exact hjob _ hq
  exact
    { wired :=
        { targets := fun p hp => hp.elim (fun hp => (htarget p hp).elim) fun hp => hp.elim
          joined := fun r _ _ hr => (hhandler r _ hr).elim
          held := fun p r hr => (hholds p r hr).elim
          queued := fun _ _ hr => (hjob _ hr).elim
          one := fun p m _ hp => (hbody p m hp).elim
          apart := fun p m hp => (hbody p m hp).elim
          waits := fun p m hp => (hbody p m hp).elim
          begun := fun r _ hr => (hhandler r _ hr).elim
          sole := fun r _ _ hr => (hhandler r _ hr).elim
          told := fun _ _ _ hr => (hjob _ hr).elim
          resumed := fun r _ _ _ hr => (hhandler r _ hr).elim
          running := fun _ _ hm => by cases hm
          kept := fun r _ hr => (hhandler r _ hr).elim
          due := fun m hm => by
            have ho := hm.1
            rw [(h.fresh m).2.2.1] at ho
            cases ho }
      leaves := fun m p hm => (h.leaf m p hm).elim
      visited := fun m hm => (hm (hstarts m)).elim
      linked := fun _ _ => hlinked
      capable := fun m c hm => (hcapability m c hm).elim
      distinct := fun m _ c _ hm => (hcapability m c hm).elim
      own := fun m c hm => (hcapability m c hm).elim
      unasked := fun m _ => .inl (h.capability m)
      late := fun _ _ hm => by cases hm
      known := fun _ hf => hf.elim
      tells := fun m c hm _ => (hcapability m c hm).elim
      noted := fun m hm => (hended m hm).elim
      logged := fun j₁ m before hp => (h.answers.not_started _ (hp.subset
        (List.mem_append_right _ (List.mem_singleton_self _))) m before rfl).elim }

end Unevaluated

theorem untouched_initial (h : σ) (m : ModuleId) : (initial h : Machine σ κ).Untouched m :=
  untouched_of_isNew (isNew_of_not_has (Nat.not_lt_zero _))

theorem resting_initial (h : σ) (hj : journal h = []) : (initial h : Machine σ κ).Resting journal
    owner reserved (fun _ => False) fun _ => False := by
  have hu := untouched_initial (κ := κ) h
  have hnew : (initial h : Machine σ κ).Unevaluated journal :=
    { idle := fun x => (hu x).idle
      fresh := fun x => (hu x).fresh
      capability := fun x => (hu x).capability
      leaf := fun _ _ hm => Nat.not_lt_zero _ (has_of_leaf hm)
      promises := rfl
      reactions := rfl
      joins := rfl
      imports := rfl
      jobs := rfl
      answers := by
        change (journal h).Answers
        rw [hj]
        exact Journal.answers_nil }
  exact ⟨hnew.sound, hnew.coherent ⟨fun x _ => (hu x).blank,
    fun x hx => (Nat.not_lt_zero _ (has_of_isLinked hx)).elim,
    fun x hx => (Nat.not_lt_zero _ (has_of_isLinked hx)).elim⟩⟩

/-- No evaluation is going on at a machine that a run can reach. -/
theorem Reachable.resting (hc : Conduct journal owner reserved hosts)
    (h : Reachable journal reserved hosts s) :
    s.Resting journal owner reserved (fun _ => False) fun _ => False := by
  obtain ⟨h₀, hj, hsteps⟩ := h
  exact Resting.steps hc (fun _ hf => hf.elim) (resting_initial h₀ hj) hsteps

/-! ## The end of a body that was waited for -/

/-- In a run, the next job tells that the body of a module has ended. -/
structure TellsEnd (journal : σ → Journal) (reserved : Set PromiseId) (hosts : Set (Host σ κ))
    (s : Machine σ κ) (r : ReactionId) (x : Settlement) (d : ModuleId) : Prop where
  reachable : Reachable journal reserved hosts s
  job : s.jobs.head? = some (.react r x)
  handler : s.handler? r = some (.bodyEnded d)

def afterBody (s : Machine σ κ) (host : Host σ κ) (r : ReactionId) (d : ModuleId) : Machine σ κ :=
  ((s.takeFirst r).complete d).answer host d

namespace TellsEnd

variable {d : ModuleId} {y : Settlement}

/-- The job is taken, and nothing is to be run, told or failed yet. -/
theorem working (hc : Conduct journal owner reserved hosts)
    (h : s.TellsEnd journal reserved hosts r y d) : (s.takeFirst r).Working journal owner reserved
      { Focus.rest (fun _ => False) fun _ => False with excused := [d] } [] [] [] [] := by
  obtain ⟨rest, hjobs⟩ := List.head?_eq_some_iff.1 h.job
  have hspare : ∀ p, False → s.IsTarget p ∨ False := fun _ hp => hp.elim
  obtain ⟨hs, hcoh⟩ := (h.reachable.resting hc).takeFirst hjobs hspare
  rw [h.handler] at hcoh
  exact Resting.working hs hcoh ⟨rfl, rfl, id⟩ rfl

section Ended

variable {v : Value} (hc : Conduct journal owner reserved hosts) (hh : host ∈ hosts)
variable (h : s.TellsEnd journal reserved hosts r (.fulfilled v) d)
variable (hd : (s.cyclic d).status = .evaluatingAsync)
include hc hh h hd

theorem told : (s.afterBody host r d).Gathering journal owner reserved
      (.rest (fun _ => False) fun _ => False) [] [] ((s.afterBody host r d).cyclic d).parents ∧
    ((s.afterBody host r d).cyclic d).status = .evaluated := by
  have hend : Entry.ended d ∈ journal s.host := by
    obtain ⟨rest, hjobs⟩ := List.head?_eq_some_iff.1 h.job
    exact (h.reachable.resting hc).coherent.wired.told r _ d
      (by rw [hjobs]; exact List.mem_cons_self) h.handler
  exact (h.working hc).gathering hc hh hend hd

theorem gathering : (s.afterBody host r d).Gathering journal owner reserved
    (.rest (fun _ => False) fun _ => False) [] [] ((s.afterBody host r d).cyclic d).parents :=
  (h.told hc hh hd).1

theorem complete : ((s.afterBody host r d).cyclic d).status = .evaluated :=
  (h.told hc hh hd).2

end Ended

end TellsEnd

/-- In a run, a body that was waited for has ended well. Of the modules that have become ready by
this, those of `todo` are still to be run. -/
def Draining (journal : σ → Journal) (reserved : Set PromiseId) (hosts : Set (Host σ κ))
    (host : Host σ κ) (todo : List ModuleId) (s' : Machine σ κ) : Prop :=
  ∃ (s : Machine σ κ) (r : ReactionId) (v : Value) (d : ModuleId) (done : List ModuleId),
    s.TellsEnd journal reserved hosts r (.fulfilled v) d ∧ (s.cyclic d).status = .evaluatingAsync ∧
    ((s.afterBody host r d).readyAfter d).2.sortByTurn ((s.afterBody host r d).readyAfter d).1 =
      done ++ todo ∧
    (done.forM (runReady host)) ((s.afterBody host r d).readyAfter d).2 = some ((), s')

theorem Draining.running (hc : Conduct journal owner reserved hosts) (hh : host ∈ hosts)
    {todo : List ModuleId} (h : s.Draining journal reserved hosts host todo) :
    ∃ released, s.Running journal owner reserved (.rest (fun _ => False) fun _ => False) todo
      released := by
  obtain ⟨s₀, r, v, d, done, htells, hd, hsorted, hrun⟩ := h
  obtain ⟨released, hr⟩ := (htells.gathering hc hh hd).readyAfter
  rw [hsorted] at hr
  exact runMany_ends hc hh done released _ s hr hrun

end Machine

end ModuleGraph

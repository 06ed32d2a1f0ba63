import ModuleGraph.Proofs.Imports.Keepers

/-! # The outcome of dynamic imports

A ticket is redeemed by its first completion, and nothing else settles the promise of the import.
Once the queue of jobs is empty this completion tells what has become of the promise: it is rejected
with what was found to be wrong, or it follows the evaluation of the imported module. -/

namespace ModuleGraph

open Relation Machine

section Runs

variable {σ κ : Type} {hosts : Set (Host σ κ)} {rank : Host σ κ → Nat} {host : Host σ κ}
variable {owned : σ → PromiseId → Prop}

/-! ## The first completion of a ticket -/

/-- The first completion of a ticket in a run that has come to `c`: at the machine `s` the ticket
was still open. -/
structure Completion (hosts : Set (Host σ κ)) (owned : σ → PromiseId → Prop) (t : TicketId)
    (i : PendingImport) (host : Host σ κ) (found : Except Value ModuleId) (s s' : Machine σ κ)
    (calls : List (Option Capability)) (c : Scene σ κ) : Prop where
  reached : Scene.Reached hosts owned ⟨s, calls⟩
  isOpen : s.import? t = some i
  host_mem : host ∈ hosts
  finished : host.finishImport t found s = some ((), s')
  turns : Turns hosts owned ⟨s', calls⟩ c

/-- The reaction of an import has asked for the namespace of the imported module. -/
def AskedNamespace (hosts : Set (Host σ κ)) (owned : σ → PromiseId → Prop) (c : Scene σ κ)
    (p : PromiseId) (m : ModuleId) (result : Except Value Value) : Prop :=
  ∃ host ∈ hosts, ∃ s calls r v s', Turns hosts owned c ⟨s, calls⟩ ∧
    s.jobs.head? = some (.react r (.fulfilled v)) ∧
    s.reaction? r = some ⟨.imported m, some ⟨p, true⟩⟩ ∧
    host.namespaceOf m (s.takeFirst r) = some (result, s')

/-- The promise `p` of an import that was completed at `c` follows the promise `q` of the evaluation
of the imported module. -/
inductive FollowsEvaluation (hosts : Set (Host σ κ)) (owned : σ → PromiseId → Prop) (c : Scene σ κ)
    (p q : PromiseId) (m : ModuleId) (s : Machine σ κ) : Prop
  | pending : (s.promise q).settlement? = none → (s.promise p).settlement? = none →
      FollowsEvaluation hosts owned c p q m s
  | rejected (e : Value) : (s.promise q).settlement? = some (.rejected e) →
      (s.promise p).settlement? = some (.rejected e) → FollowsEvaluation hosts owned c p q m s
  | fulfilled (v : Value) : (s.promise q).settlement? = some (.fulfilled v) →
      AskedNamespace hosts owned c p m (.ok (.namespace m)) →
        (s.promise p).settlement? = some (.fulfilled (.namespace m)) →
          FollowsEvaluation hosts owned c p q m s
  /-- The host has thrown when the namespace was built. -/
  | failed (v e : Value) : (s.promise q).settlement? = some (.fulfilled v) →
      AskedNamespace hosts owned c p m (.error e) →
        (s.promise p).settlement? = some (.rejected e) → FollowsEvaluation hosts owned c p q m s

/-- What has become of the promise `p` of an import at the machine `s`: `host` has redeemed the
ticket at the machine `before`, and this has led to `c`. -/
inductive ImportOutcome (hosts : Set (Host σ κ)) (owned : σ → PromiseId → Prop) (t : TicketId)
    (p : PromiseId) (host : Host σ κ) (before : Machine σ κ) (c : Scene σ κ) (s : Machine σ κ) :
    Except Value ModuleId → Prop
  | notFound (e : Value) : (s.promise p).settlement? = some (.rejected e) →
      ImportOutcome hosts owned t p host before c s (.error e)
  | notLinked {m : ModuleId} {e : LinkError} {s₁ s₂ : Machine σ κ} {v : Value} :
      host.link m (before.takeImport t).2 = some (.error e, s₁) → e.toValue s₁ = some (v, s₂) →
        (s.promise p).settlement? = some (.rejected v) →
          ImportOutcome hosts owned t p host before c s (.ok m)
  | evaluated {m : ModuleId} {s₁ s₂ : Machine σ κ} {q : PromiseId} :
      host.link m (before.takeImport t).2 = some (.ok (), s₁) → host.evaluate m s₁ = some (q, s₂) →
        FollowsEvaluation hosts owned c p q m s →
          ImportOutcome hosts owned t p host before c s (.ok m)

/-! ## Runs -/

variable {c c' : Scene σ κ} {s s' : Machine σ κ} {calls : List (Option Capability)}
variable {t : TicketId} {i : PendingImport} {p q : PromiseId} {k : Keeper} {m : ModuleId}
variable {r : ReactionId} {found : Except Value ModuleId}

theorem Turn.passes_all (h : Observes hosts rank owned) (hturn : Turn hosts owned c c')
    (hc : c.Sound owned noKeeper) : c.Passes owned noKeeper c' :=
  (hturn.passes h hc).resolve_right fun hk => by cases hk <;> contradiction

theorem Turns.sound (h : Observes hosts rank owned) (hturns : Turns hosts owned c c')
    (hc : c.Sound owned noKeeper) : c'.Sound owned noKeeper ∧ c.machine.Lasts c'.machine := by
  induction hturns with
  | refl => exact ⟨hc, .refl _⟩
  | tail _ hturn ih =>
    obtain ⟨hs, hlasts⟩ := ih
    have hpasses := hturn.passes_all h hs
    exact ⟨hpasses.sound, hlasts.trans hpasses.lasts⟩

theorem Scene.Reached.sound (h : Observes hosts rank owned) (hc : c.Reached hosts owned) :
    c.Sound owned noKeeper := by
  obtain ⟨start, hstart, hturns⟩ := hc
  exact (hturns.sound h ⟨trusty_initial hstart, fun d hd => nomatch hd⟩).1

theorem Scene.Sound.ticket (hc : c.Sound owned noKeeper) (hi : c.machine.import? t = some i) :
    c.Sound owned (oneKeeper i.capability.promise (.ticket t)) where
  trusty := hc.trusty.entrust (hc.trusty.ticket hi)
  calls d hd := by
    have hcommon := hc.calls d hd
    refine ⟨hcommon.made, fun k hk => ?_⟩
    obtain ⟨e, -⟩ | hk := hk
    · exact hcommon.apart (.ticket t) (.inr ⟨t, i, rfl, hi, e.symm⟩)
    · exact hcommon.apart k (.inr hk)

/-- A ticket is open until it is redeemed. -/
theorem open_or_completed (h : Observes hosts rank owned) (hc : c.Reached hosts owned)
    (ht : t.index < c.machine.imports.size) : (∃ i, c.machine.import? t = some i) ∨
      ∃ i host found s s' calls, Completion hosts owned t i host found s s' calls c := by
  obtain ⟨start, hstart, hturns⟩ := hc
  induction hturns with
  | refl => exact absurd ht (Nat.not_lt_zero _)
  | @tail c c' hturns hturn ih =>
    have hreached : c.Reached hosts owned := ⟨start, hstart, hturns⟩
    have hs := hreached.sound h
    by_cases hlt : t.index < c.machine.imports.size
    · obtain ⟨i, hi⟩ | ⟨i, host, found, s, s', calls, hcompletion⟩ := ih hlt
      · obtain hpasses | hk := hturn.passes h (hs.ticket hi)
        · obtain ⟨i', hi', -⟩ := hpasses.sound.trusty.keeper.kept
          exact .inl ⟨i', hi'⟩
        · cases hk with
          | redeem hp hhost hfinish =>
            cases hp.2
            exact .inr ⟨i, _, _, _, _, _, hreached, hi, hhost, hfinish, .refl⟩
          | job hp => cases hp.2
      · exact .inr ⟨i, host, found, s, s', calls,
          { hcompletion with turns := hcompletion.turns.tail hturn }⟩
    · exact .inl ((hturn.passes_all h hs).fresh t (Nat.not_lt.1 hlt) ht)

/-! ## Finishing an import -/

theorem settlement?_settle (track : Tracker σ) {d : Capability} (hmade : s.Made d.promise)
    (hu : s.Undecided d.promise) (result : Except Value Value)
    (hresult : ∀ q, result ≠ .ok (.promise q)) :
    ((s.settle track d result).promise d.promise).settlement? = some (.ofExcept result) := by
  have hspent := not_isSpent_of_undecided hu
  have hended : s.Ended (fun _ => []) (s.settle track d result) d.promise (.ofExcept result) := by
    cases result with
    | ok v => exact resolve_ended s d (fun q e => hresult q (congrArg _ e)) hspent
    | error e => exact reject_ended s (by exact fun _ _ _ => rfl) d hspent
  rw [← PromiseState.phase_snd, hended.settled hmade]

/-- What the first completion of a ticket does at once. -/
theorem finishImport_outcome (h : Observes hosts rank owned) (hhost : host ∈ hosts)
    (hs : s.Trusty owned noKeeper) (hi : s.import? t = some i)
    (hrun : host.finishImport t found s = some ((), s')) :
    (∃ e, found = .error e ∧
      (s'.promise i.capability.promise).settlement? = some (.rejected e)) ∨
    (∃ m e s₁ v s₂, found = .ok m ∧ host.link m (s.takeImport t).2 = some (.error e, s₁) ∧
      e.toValue s₁ = some (v, s₂) ∧
        (s'.promise i.capability.promise).settlement? = some (.rejected v)) ∨
    ∃ m s₁ q s₂, found = .ok m ∧ host.link m (s.takeImport t).2 = some (.ok (), s₁) ∧
      host.evaluate m s₁ = some (q, s₂) ∧ s'.Trusty owned
        (oneKeeper i.capability.promise (.reaction s₂.nextReaction q m)) := by
  obtain ⟨i', hi', hcapability⟩ := (hs.ticket hi).kept
  cases hi.symm.trans hi'
  have htaken := hs.takeImport hi
  have hreject : ∀ {s₁ : Machine σ κ} e,
      s₁.Trusty owned (oneKeeper i.capability.promise .operation) →
        ((s₁.reject host.track i.capability e).promise i.capability.promise).settlement? =
          some (.rejected e) := fun e hs₁ =>
    settlement?_settle host.track hs₁.keeper.made hs₁.keeper.undecided (.error e) nofun
  obtain ⟨e, rfl, rfl⟩ | ⟨m, rfl, hload⟩ := finishImport_cases hi hrun
  · exact .inl ⟨e, rfl, hreject e htaken⟩
  obtain ⟨result, s₁, hlink, hload⟩ := Run.bind_eq_some.1 hload
  obtain ⟨hs₁, -⟩ := (h.carries hhost).link m _ _ _ hlink htaken
  cases result with
  | error e =>
    obtain ⟨v, s₂, hvalue, hload⟩ := Run.bind_eq_some.1 hload
    obtain ⟨hs₂, -⟩ := (h.carries hhost).toValue e _ _ _ hvalue hs₁
    cases hload
    exact .inr (.inl ⟨m, e, s₁, v, s₂, rfl, hlink, hvalue, hreject v hs₂⟩)
  | ok u =>
    obtain ⟨q, s₂, hevaluate, hload⟩ := Run.bind_eq_some.1 hload
    obtain ⟨hevaluated, hq⟩ := (h.carries hhost).evaluated hs₁ hevaluate
    cases hload
    refine .inr (.inr ⟨m, s₁, q, s₂, rfl, hlink, hevaluate, ?_⟩)
    have hattach := (hevaluated hs₁).1.attach (h.track host hhost) hq.made m
    rwa [← hcapability] at hattach

/-! ## The job of the keeper -/

/-- The job of the reaction of an import, in a run from `c` on, has settled the promise with what
the handler has returned or thrown. -/
def SettledByJob (hosts : Set (Host σ κ)) (owned : σ → PromiseId → Prop) (c : Scene σ κ)
    (p q : PromiseId) (m : ModuleId) (s : Machine σ κ) : Prop :=
  ∃ host ∈ hosts, ∃ s₁ calls r x result s₂, Turns hosts owned c ⟨s₁, calls⟩ ∧
    s₁.jobs.head? = some (.react r x) ∧
    s₁.reaction? r = some ⟨.imported m, some ⟨p, true⟩⟩ ∧
    runHandler host (.imported m) x (s₁.takeFirst r) = some (result, s₂) ∧
    (s.promise q).settlement? = some x ∧ (s.promise p).settlement? = some (.ofExcept result)

theorem namespaceOf_ok {v : Value} (hrun : host.namespaceOf m s = some (.ok v, s')) :
    v = .namespace m := by
  obtain ⟨keys, s₁, -, hrun⟩ | ⟨e, -, hrun⟩ := throwing_bind.1 hrun
  · cases hrun
    rfl
  · cases hrun

theorem runHandler_imported_ne {x : Settlement} {result : Except Value Value}
    (hrun : runHandler host (.imported m) x s = some (result, s')) (q : PromiseId) :
    result ≠ .ok (.promise q) := by
  rintro rfl
  cases x with
  | fulfilled v => cases namespaceOf_ok hrun
  | rejected e => cases hrun

theorem keeper_job (h : Observes hosts rank owned) (hhost : host ∈ hosts)
    (hs : s.Trusty owned (oneKeeper p (.reaction r q m))) {x : Settlement}
    (hhead : s.jobs.head? = some (.react r x)) {result : Except Value Bool}
    (hrun : runNextJob host s = some (result, s')) :
    ∃ result s₁, runHandler host (.imported m) x (s.takeFirst r) = some (result, s₁) ∧
      (s'.promise p).settlement? = some (.ofExcept result) := by
  obtain ⟨hr, -⟩ := hs.keeper.kept
  obtain ⟨rest, hjobs⟩ := List.head?_eq_some_iff.1 hhead
  obtain ⟨result', hjob⟩ := runNextJob_job hjobs hrun
  obtain ⟨result, s₁, hhandler, rfl⟩ := runJob_react hjobs hr hjob
  have hhandler : runHandler host (.imported m) x (s.takeFirst r) = some (result, s₁) := hhandler
  have hcarries : CarriesLink host (trust owned (oneKeeper p .operation)) :=
    h.carries hhost
  have hhandled : (trust owned (oneKeeper p .operation)).change (s.takeFirst r) s₁ := by
    refine hcarries.runHandler (fun code e => ?_) (fun _ _ e => by cases e) ?_ hhandler
    · cases e
    · trivial
  have hp := (hhandled (hs.takeFirst hhead)).1.keeper
  exact ⟨result, s₁, hhandler,
    settlement?_settle host.track hp.made hp.undecided result (runHandler_imported_ne hhandler)⟩

/-- The reaction that keeps the promise waits, until its job settles the promise. -/
theorem keeper_turns (h : Observes hosts rank owned) (hc : c.Sound owned noKeeper)
    (hk : c.Sound owned (oneKeeper p (.reaction r q m))) (hturns : Turns hosts owned c c') :
    c'.Sound owned (oneKeeper p (.reaction r q m)) ∨
      SettledByJob hosts owned c p q m c'.machine := by
  induction hturns with
  | refl => exact .inl hk
  | @tail c₁ c₂ hturns hturn ih =>
    have hlasts := (hturn.passes_all h (Turns.sound h hturns hc).1).lasts
    obtain hk | ⟨host, hhost, s₁, calls, r', x, result, s₂, hto, hhead, hr, hrun, hq, hp⟩ := ih
    · obtain hpasses | hjob := hturn.passes h hk
      · exact .inl hpasses.sound
      · cases hjob with
        | redeem hp => cases hp.2
        | job hp hhead hhost hrun =>
          cases hp.2
          obtain ⟨hr, hplaced⟩ := hk.trusty.keeper.kept
          obtain ⟨result, s₁, hhandler, hsettled⟩ := keeper_job h hhost hk.trusty hhead hrun
          have hq := hplaced.queued _ (List.mem_of_mem_head? hhead)
          exact .inr ⟨_, hhost, _, _, r, _, result, s₁, hturns, hhead, hr, hhandler,
            hlasts.settled _ _ hq, hsettled⟩
    · exact .inr ⟨host, hhost, s₁, calls, r', x, result, s₂, hto, hhead, hr, hrun,
        hlasts.settled _ _ hq, hlasts.settled _ _ hp⟩

theorem SettledByJob.follows (h : SettledByJob hosts owned c p q m s) :
    FollowsEvaluation hosts owned c p q m s := by
  obtain ⟨host, hhost, s₁, calls, r, x, result, s₂, hto, hhead, hr, hrun, hq, hp⟩ := h
  cases x with
  | rejected e =>
    cases hrun
    exact .rejected e hq hp
  | fulfilled v =>
    cases result with
    | error e => exact .failed v e hq ⟨host, hhost, s₁, calls, r, v, s₂, hto, hhead, hr, hrun⟩ hp
    | ok w =>
      cases namespaceOf_ok hrun
      exact .fulfilled v hq ⟨host, hhost, s₁, calls, r, v, s₂, hto, hhead, hr, hrun⟩ hp

/-- A reaction whose job is not queued waits for a promise that is pending. -/
theorem follows_of_idle (hk : s.Trusty owned (oneKeeper p (.reaction r q m)))
    (hjobs : s.jobs = []) : FollowsEvaluation hosts owned c p q m s := by
  obtain ⟨-, hplaced⟩ := hk.keeper.kept
  refine .pending ?_ ?_
  · obtain hq | ⟨x, hx⟩ := hplaced.placed
    · by_contra hne
      obtain ⟨x, hx⟩ := Option.ne_none_iff_exists'.1 hne
      rw [Holds, PromiseState.reactions_of_settlement hx] at hq
      cases hq
    · rw [hjobs] at hx
      cases hx
  · rw [← PromiseState.phase_snd, show (s.promise p).phase = _ from hk.keeper.undecided]

/-- What has become of the promise of a redeemed ticket, when no job is queued. -/
theorem Completion.outcome (h : Observes hosts rank owned)
    (hcompletion : Completion hosts owned t i host found s s' calls c)
    (hjobs : c.machine.jobs = []) :
    ImportOutcome hosts owned t i.capability.promise host s ⟨s', calls⟩ c.machine found := by
  obtain ⟨hreached, hi, hhost, hrun, hturns⟩ := hcompletion
  have hs := hreached.sound h
  have hs' := (Turn.passes_all h (.finishImport hhost hrun) hs).sound
  have hlasts := (hturns.sound h hs').2
  obtain ⟨e, rfl, he⟩ | ⟨m, e, s₁, v, s₂, rfl, hlink, hvalue, hv⟩ |
    ⟨m, s₁, q, s₂, rfl, hlink, hevaluate, hk⟩ := finishImport_outcome h hhost hs.trusty hi hrun
  · exact .notFound e (hlasts.settled _ _ he)
  · exact .notLinked hlink hvalue (hlasts.settled _ _ hv)
  · refine .evaluated hlink hevaluate ?_
    have hfree := (hs.ticket hi).calls
    have hscene : Scene.Sound owned (oneKeeper i.capability.promise
        (.reaction s₂.nextReaction q m)) ⟨s', calls⟩ := by
      refine ⟨hk, fun d hd => ⟨(hs'.calls d hd).made, fun k hd' => ?_⟩⟩
      obtain ⟨e, -⟩ | hd' := hd'
      · exact (hfree d hd).apart (.ticket t) (.inl ⟨e, rfl⟩)
      · exact (hs'.calls d hd).apart k (.inr hd')
    obtain hk | hsettled := keeper_turns h hs' hscene hturns
    · exact follows_of_idle hk.trusty hjobs
    · exact hsettled.follows

/-- An import that was completed is not completed again. -/
theorem Completion.redeemed (h : Observes hosts rank owned)
    (hcompletion : Completion hosts owned t i host found s s' calls c) :
    c.machine.import? t = none := by
  obtain ⟨hreached, hi, hhost, hrun, hturns⟩ := hcompletion
  have hs := hreached.sound h
  have hs' := (Turn.passes_all h (.finishImport hhost hrun) hs).sound
  have hlasts := (hturns.sound h hs').2
  have hlt := lt_of_import? hi
  have hload := change_redeemed h hhost hi (hs.trusty.common_takeImport hi fun _ => id) hrun
  obtain ⟨-, -, hupholds⟩ :=
    hload ((harmless_takeImport t (fun _ => id) hs.trusty).trusty hs.trusty)
  have hnone : (s.takeImport t).2.import? t = none := by
    rw [Machine.takeImport, hi]
    exact (import?_taken s t t).trans (if_pos rfl)
  by_contra hne
  obtain ⟨i', hi'⟩ := Option.ne_none_iff_exists'.1 hne
  have hlt' : t.index < (s.takeImport t).2.imports.size := by rwa [size_takeImport]
  have hlt'' : t.index < s'.imports.size := hlt'.trans_le hupholds.tickets.size
  have := hupholds.tickets.opened t i' hlt' (hlasts.imports t i' hlt'' hi')
  rw [hnone] at this
  cases this

/-- The promise of an open ticket is pending. -/
theorem Scene.Reached.pending (h : Observes hosts rank owned) (hc : c.Reached hosts owned)
    (hi : c.machine.import? t = some i) :
    (c.machine.promise i.capability.promise).settlement? = none := by
  have hu := ((hc.sound h).trusty.ticket hi).undecided
  rw [← PromiseState.phase_snd, show (c.machine.promise _).phase = _ from hu]

theorem LinkError.exists_toValue (e : LinkError) (s : Machine σ κ) :
    ∃ v s', e.toValue s = some (v, s') := by
  rw [toValue]
  cases e.fault.thrown? <;> exact ⟨_, _, rfl⟩

/-- A completion ends unless the link or the evaluation of the module does not. -/
theorem exists_finishImport (hi : s.import? t = some i)
    (hload : ∀ m, found = .ok m → ∃ result s₁, host.link m (s.takeImport t).2 = some (result, s₁) ∧
      (result = .ok () → ∃ p s₂, host.evaluate m s₁ = some (p, s₂))) :
    ∃ s', host.finishImport t found s = some ((), s') := by
  have hfst : (s.takeImport t).1 = some i := by rw [takeImport, hi]
  rw [Host.finishImport, Run.make_bind, hfst]
  cases found with
  | error e => exact ⟨_, rfl⟩
  | ok m =>
    obtain ⟨result, s₁, hlink, hevaluate⟩ := hload m rfl
    cases result with
    | error e =>
      obtain ⟨v, s₂, hvalue⟩ := e.exists_toValue s₁
      exact ⟨_, Run.bind_eq_some.2 ⟨_, _, hlink, Run.bind_eq_some.2 ⟨v, s₂, hvalue, rfl⟩⟩⟩
    | ok u =>
      obtain ⟨p, s₂, hevaluate⟩ := hevaluate rfl
      exact ⟨_, Run.bind_eq_some.2 ⟨_, _, hlink, Run.bind_eq_some.2 ⟨p, s₂, hevaluate, rfl⟩⟩⟩

/-- The outcome of dynamic imports. A run is any schedule of links, evaluations, dynamic imports,
completions and jobs. At each machine of it, a ticket that was made is open or was completed. While
it is open its promise is pending, and a completion of it ends as soon as linking and evaluating
the module do. Any completion of an open ticket redeems it, so that it is the first one and the only
one: from then on completions of the ticket change nothing, and whenever no job is queued this
completion tells what has become of the promise.

A dynamic import of a text opens a ticket for the promise that it returns; all that it does else is
to tell the host. -/
theorem dynamic_import_outcome (h : Observes hosts rank owned) (hc : c.Reached hosts owned) :
    (∀ t : TicketId, t.index < c.machine.imports.size → (∃ i, c.machine.import? t = some i) ∨
      ∃ i host found s s' calls, Completion hosts owned t i host found s s' calls c) ∧
    (∀ t i, c.machine.import? t = some i →
      (c.machine.promise i.capability.promise).settlement? = none ∧
      ∀ (host : Host σ κ) found, (∀ m, found = .ok m →
          ∃ result s₁, host.link m (c.machine.takeImport t).2 = some (result, s₁) ∧
            (result = .ok () → ∃ p s₂, host.evaluate m s₁ = some (p, s₂))) →
        ∃ s', host.finishImport t found c.machine = some ((), s')) ∧
    (∀ t i host found s s' calls, Completion hosts owned t i host found s s' calls c →
      (s.promise i.capability.promise).settlement? = none ∧
      c.machine.import? t = none ∧
      (∀ (host' : Host σ κ) found',
        host'.finishImport t found' c.machine = some ((), c.machine)) ∧
      (c.machine.jobs = [] →
        ImportOutcome hosts owned t i.capability.promise host s ⟨s', calls⟩ c.machine found)) ∧
    ∀ host ∈ hosts, ∀ referrer v text p s, v.text? = some text →
      host.importCall referrer v c.machine = some (p, s) →
        (c.machine.openImport referrer text).import? ⟨c.machine.imports.size⟩ =
            some ⟨referrer, text, ⟨p, true⟩⟩ ∧
          Turn hosts owned c ⟨c.machine.openImport referrer text, c.calls⟩ ∧
          Turns hosts owned ⟨c.machine.openImport referrer text, c.calls⟩ ⟨s, c.calls⟩ := by
  refine ⟨fun t ht => open_or_completed h hc ht,
    fun t i hi => ⟨hc.pending h hi, fun host found => exists_finishImport hi⟩,
    fun t i host found s s' calls hcompletion => ?_,
    fun host hhost referrer v text p s hv hrun => ?_⟩
  · have hredeemed := hcompletion.redeemed h
    exact ⟨hcompletion.reached.pending h hcompletion.isOpen, hredeemed,
      fun host' found' => finishImport_of_redeemed host' found' hredeemed, hcompletion.outcome h⟩
  · obtain ⟨rfl, u, hrequested⟩ := importCall_text hv hrun
    refine ⟨?_, .deed (.openImport c.machine referrer text),
      h.requested host hhost c.calls hrequested⟩
    rw [import?_openImport, if_pos rfl]

end Runs

/-! ## A run -/

/-- A host that finds the same module wherever it looks, and that owns no promises. -/
def Host.finding (depth : Nat) (m : ModuleId) : Host Unit Unit :=
  { Host.bare depth with resolve := fun _ _ => pure m }

namespace FoundImport

def hosts : Set (Host Unit Unit) := {host | host = Host.finding 9 ⟨0⟩}

def owned (_ : Unit) (_ : PromiseId) : Prop := False

theorem observes : Observes hosts (fun _ => 0) owned where
  track _ hhost _ _ _ _ := by
    cases hhost
    exact id
  chores host hhost := by
    cases hhost
    have hR : ∀ below : Set (Host Unit Unit), Composes (Deeds below owned) := fun _ =>
      ⟨fun _ => .refl, .trans⟩
    exact
      { resolve := fun _ _ => Within.pure (hR _) _
        prepare := fun _ => Within.pure (hR _) _
        execute := fun _ => Within.pure (hR _) _
        resume := fun _ _ => Within.pure (hR _) _
        call := fun _ _ => Within.exhausted
        linkLeaf := fun _ => Within.pure (hR _) _
        evaluateLeaf := fun _ => Within.pure (hR _) _
        initializeForeign := fun _ => Within.pure (hR _) _
        instantiateForeign := fun _ => Within.pure (hR _) _
        executeForeign := fun _ => Within.pure (hR _) _
        exportedNames := fun _ => Within.ofRun (Along.pure (hR _) _)
        resolveExport := fun _ _ _ => Within.pure (hR _) _
        importRequested := fun _ _ _ => nofun
        metaProperties := fun _ => Along.pure (hR _) _
        finishMeta := fun _ _ => Along.pure (hR _) _ }
  call host hhost code x s r s' calls hrun := by
    cases hhost
    cases x <;> cases hrun <;> exact .refl
  requested host hhost referrer specifier ticket s u s' calls hrun := by
    cases hhost
    cases hrun
    exact .single (.deed (.queueImport ..))

def made : Machine Unit Unit := ((initial () : Machine Unit Unit).newLeaf none).2

def requested : Machine Unit Unit :=
  (((Host.finding 9 ⟨0⟩).importCall (.script ⟨0⟩) (.string "m") made).get (by rfl)).2

def settled : Machine Unit Unit := (((Host.finding 9 ⟨0⟩).runJobs requested).get (by rfl)).2

theorem importCall_made : (Host.finding 9 ⟨0⟩).importCall (.script ⟨0⟩) (.string "m") made =
    some (⟨0⟩, requested) := by rfl

theorem runJobs_requested :
    (Host.finding 9 ⟨0⟩).runJobs requested = some (.ok (), settled) := by rfl

theorem reached_settled : Scene.Reached hosts owned ⟨settled, []⟩ := by
  have hmade : (initial () : Machine Unit Unit).Deed hosts owned made :=
    .apart ⟨rfl, rfl, rfl, rfl, rfl, fun m p hm => by
      obtain ⟨_ | n⟩ := m
      · obtain ⟨_, hc, -⟩ | hk := hm
        · cases hc
        · cases hk
      · exact hm, fun _ hp => hp⟩
  have hrequested : Turns hosts owned ⟨made, []⟩ ⟨requested, []⟩ :=
    .of_importCall observes rfl importCall_made
  have hsettled : Turns hosts owned ⟨requested, []⟩ ⟨settled, []⟩ :=
    .of_runJobs observes rfl runJobs_requested
  exact ⟨(), fun _ => id, .head (.deed hmade) (hrequested.trans hsettled)⟩

end FoundImport

open FoundImport in
/-- A script imports a module that is found; after all jobs have run the promise of the import
gives the namespace. -/
theorem dynamic_import_outcome_found :
    Observes hosts (fun _ => 0) owned ∧ Scene.Reached hosts owned ⟨settled, []⟩ ∧
    settled.jobs = [] ∧
    (settled.promise ⟨0⟩).settlement? = some (.fulfilled (.namespace ⟨0⟩)) ∧
    ∃ i host found s s' calls,
      Completion hosts owned ⟨0⟩ i host found s s' calls ⟨settled, []⟩ ∧
      (s.promise i.capability.promise).settlement? = none ∧ settled.import? ⟨0⟩ = none ∧
      (∀ (host' : Host Unit Unit) found',
        host'.finishImport ⟨0⟩ found' settled = some ((), settled)) ∧
      ImportOutcome hosts owned ⟨0⟩ i.capability.promise host s ⟨s', calls⟩ settled found := by
  refine ⟨observes, reached_settled, rfl, rfl, ?_⟩
  obtain ⟨htickets, -, hcompletions, -⟩ := dynamic_import_outcome observes reached_settled
  obtain ⟨i, hi⟩ | ⟨i, host, found, s, s', calls, hcompletion⟩ := htickets ⟨0⟩ (by decide)
  · cases hi
  · obtain ⟨hpending, hredeemed, hlater, houtcome⟩ := hcompletions _ _ _ _ _ _ _ hcompletion
    exact ⟨i, host, found, s, s', calls, hcompletion, hpending, hredeemed, hlater, houtcome rfl⟩

end ModuleGraph

import ModuleGraph.Proofs.Promises.Wired

/-! # Histories of promises

Whatever the operations of the machine do to promises, reactions and jobs they do in small ticks. A
history is a sequence of them, with what happened in it: the reactions that were attached, the
promises that were settled, and the reactions that have run. The ledger is what the host keeps of
what it is told about rejections. -/

namespace ModuleGraph

variable {σ κ α : Type}

inductive Incident where
  | attached (promise : PromiseId) (reaction : ReactionId)
  /-- A reaction was attached to something that is no promise. -/
  | lost (reaction : ReactionId)
  | settled (promise : PromiseId) (settlement : Settlement)
  /-- Somebody looked at a rejected promise without a reaction. -/
  | consumed (promise : PromiseId)
  /-- The job of a reaction was started. -/
  | ran (reaction : ReactionId) (settlement : Settlement)
  deriving DecidableEq

namespace Machine

variable {track : Tracker σ} {ledger : σ → α}
variable {s s' s'' : Machine σ κ} {p : PromiseId} {es es' : List Incident}

/-- Nothing has happened to promises, reactions and jobs, and nothing was told about rejections. -/
structure LeavesPromises (ledger : σ → α) (s s' : Machine σ κ) : Prop where
  promises : s'.promises = s.promises
  reactions : s'.reactions = s.reactions
  jobs : s'.jobs = s.jobs
  unhandled : s'.unhandled = s.unhandled
  ledger : ledger s'.host = ledger s.host

def settling (s s' : Machine σ κ) (p : PromiseId) : List Incident :=
  match (s.promise p).settlement?, (s'.promise p).settlement? with
  | none, some x => [.settled p x]
  | _, _ => []

def consuming (s : Machine σ κ) (p : PromiseId) : List Incident :=
  match s.promise p with
  | .rejected .. => [.consumed p]
  | .pending .. | .fulfilled _ => []

inductive Tick (track : Tracker σ) (ledger : σ → α) :
    Machine σ κ → List Incident → Machine σ κ → Prop
  | aside {s s' : Machine σ κ} : s.LeavesPromises ledger s' → Tick track ledger s [] s'
  | newPromise (s : Machine σ κ) :
      Tick track ledger s [] (s.newPromise (.pending [] false)).2
  | newFulfilled (s : Machine σ κ) (v : Value) :
      Tick track ledger s [.settled s.nextPromise (.fulfilled v)] (s.newFulfilled v).2
  | attach (s : Machine σ κ) {p : PromiseId} (reaction : Reaction κ) : s.Made p →
      Tick track ledger s [.attached p s.nextReaction] (s.attach track p reaction)
  /-- The names of promises are numbers. No operation gives out one that stands for no promise, but
  a reaction that is attached to such a name is lost. -/
  | lose (s : Machine σ κ) {p : PromiseId} (reaction : Reaction κ) : ¬s.Made p →
      Tick track ledger s [.lost s.nextReaction] (s.attach track p reaction)
  | settle (s : Machine σ κ) {c : Capability} (result : Except Value Value) : s.Made c.promise →
      Tick track ledger s (s.settling (s.settle track c result) c.promise)
        (s.settle track c result)
  | markHandled (s : Machine σ κ) (p : PromiseId) :
      Tick track ledger s (s.consuming p) (s.markHandled track p)
  | takeReaction {s : Machine σ κ} {r : ReactionId} {x : Settlement} :
      s.jobs.head? = some (.react r x) → Tick track ledger s [.ran r x] (s.takeFirst r)
  | takeJob {s : Machine σ κ} {job : Job} : s.jobs.head? = some job →
      (∀ r x, job ≠ .react r x) → Tick track ledger s [] { s with jobs := s.jobs.tail }
  | queueImport (s : Machine σ κ) (referrer : Referrer) (specifier : String) (ticket : TicketId) :
      Tick track ledger s [] (s.enqueue (.finishImport referrer specifier ticket))

/-- A sequence of ticks, with all that happens in it. -/
inductive History (track : Tracker σ) (ledger : σ → α) (s : Machine σ κ) :
    List Incident → Machine σ κ → Prop
  | nil : History track ledger s [] s
  | snoc {es es' : List Incident} {s' s'' : Machine σ κ} : History track ledger s es s' →
      s'.Tick track ledger es' s'' → History track ledger s (es ++ es') s''

namespace History

theorem single (h : s.Tick track ledger es s') : s.History track ledger es s' := by
  have h := History.nil.snoc h
  rwa [List.nil_append] at h

theorem append (h : s.History track ledger es s') (h' : s'.History track ledger es' s'') :
    s.History track ledger (es ++ es') s'' := by
  induction h' with
  | nil =>
    rw [List.append_nil]
    exact h
  | snoc _ htick ih =>
    rw [← List.append_assoc]
    exact ih.snoc htick

end History

end Machine

/-! ## What a tick does to a promise -/

namespace PromiseState

def isUnhandled : PromiseState → Bool
  | .rejected _ handled => !handled
  | .pending .. | .fulfilled _ => false

def handle : PromiseState → PromiseState
  | .rejected e _ => .rejected e true
  | st => st

def attach (r : ReactionId) : PromiseState → PromiseState
  | .pending reactions resolved => .pending (reactions ++ [r]) resolved
  | st => st.handle

theorem handle_of_not_isUnhandled {st : PromiseState} (h : st.isUnhandled = false) :
    st.handle = st := by
  cases st with
  | rejected e handled => simpa [isUnhandled, handle] using h
  | pending | fulfilled => rfl

end PromiseState

def Settlement.state (x : Settlement) (handled : Bool) : PromiseState :=
  match x with
  | .fulfilled v => .fulfilled v
  | .rejected e => .rejected e handled

@[simp] theorem Settlement.settlement?_state (x : Settlement) (handled : Bool) :
    (x.state handled).settlement? = some x := by
  cases x <;> rfl

@[simp] theorem Settlement.reactions_state (x : Settlement) (handled : Bool) :
    (x.state handled).reactions = [] := by
  cases x <;> rfl

namespace Machine

variable {track : Tracker σ} {s s' : Machine σ κ} {p q : PromiseId}

theorem promise_of_promises (h : s'.promises = s.promises) (p : PromiseId) :
    s'.promise p = s.promise p := by rw [promise, h, promise]

theorem markHandled_eq (track : Tracker σ) (s : Machine σ κ) (p : PromiseId) :
    s.markHandled track p = if (s.promise p).isUnhandled then
      (s.setPromise p (s.promise p).handle).noteRejection track p .handled
    else s := by
  rw [markHandled]
  cases hp : s.promise p with
  | rejected e handled => cases handled <;> rfl
  | pending | fulfilled => rfl

theorem promise_markHandled (hp : s.Made p) (q : PromiseId) :
    (s.markHandled track p).promise q =
      if q = p then (s.promise p).handle else s.promise q := by
  rw [markHandled_eq]
  by_cases hu : (s.promise p).isUnhandled
  · rw [if_pos hu]
    exact promise_setPromise hp _ q
  · rw [if_neg hu]
    split
    · rename_i e
      rw [e, PromiseState.handle_of_not_isUnhandled (Bool.eq_false_iff.2 hu)]
    · rfl

theorem markHandled_of_not_made (hp : ¬s.Made p) : s.markHandled track p = s := by
  rw [markHandled, promise_of_not_made hp]
  rfl

/-! ### Attaching -/

theorem attach_of_not_made (reaction : Reaction κ) (hp : ¬s.Made p) :
    s.attach track p reaction = (s.newReaction reaction).2 := by
  rw [attach_eq, promise_of_not_made hp]
  exact setPromise_of_not_made (s := (s.newReaction reaction).2) hp _

section Attach

variable (track s p) (reaction : Reaction κ)

theorem promise_attach (hp : s.Made p) (q : PromiseId) :
    (s.attach track p reaction).promise q =
      if q = p then (s.promise p).attach s.nextReaction else s.promise q := by
  have hnew : (s.newReaction reaction).2.Made p := hp
  have hself : ∀ st : PromiseState, s.promise p = st →
      s.promise q = if q = p then st else s.promise q := by
    rintro st rfl
    split
    · rename_i e
      rw [e]
    · rfl
  rw [attach_eq]
  cases hs : s.promise p with
  | pending rs b => exact promise_setPromise hnew _ q
  | fulfilled v => exact hself _ hs
  | rejected e h =>
    refine (promise_markHandled hnew q).trans ?_
    rw [show (s.newReaction reaction).2.promise p = s.promise p from rfl, hs]
    rfl

theorem jobs_attach : (s.attach track p reaction).jobs =
    s.jobs ++ ((s.promise p).settlement?.map (Job.react s.nextReaction)).toList := by
  rw [attach_eq]
  cases s.promise p with
  | pending rs b => simp [PromiseState.settlement?, setPromise, newReaction]
  | fulfilled v => rfl
  | rejected e h =>
    have hjobs : ((s.newReaction reaction).2.markHandled track p).jobs = s.jobs := by
      rw [markHandled_eq]
      split <;> rfl
    exact congrArg (· ++ [Job.react s.nextReaction (.rejected e)]) hjobs

theorem unhandled_attach : (s.attach track p reaction).unhandled =
    if (s.promise p).isUnhandled then s.unhandled.filter (· != p) else s.unhandled := by
  rw [attach_eq]
  cases hs : s.promise p with
  | pending rs b => rfl
  | fulfilled v => rfl
  | rejected e h =>
    change ((s.newReaction reaction).2.markHandled track p).unhandled = _
    rw [markHandled_eq, show (s.newReaction reaction).2.promise p = s.promise p from rfl, hs]
    split <;> rfl

theorem host_attach : (s.attach track p reaction).host =
    if (s.promise p).isUnhandled then track p .handled s.host else s.host := by
  rw [attach_eq]
  cases hs : s.promise p with
  | pending rs b => rfl
  | fulfilled v => rfl
  | rejected e h =>
    change ((s.newReaction reaction).2.markHandled track p).host = _
    rw [markHandled_eq, show (s.newReaction reaction).2.promise p = s.promise p from rfl, hs]
    split <;> rfl

end Attach

/-! ### Settling -/

/-- A pending promise with these reactions comes to be settled. -/
structure Concludes (track : Tracker σ) (s s' : Machine σ κ) (p : PromiseId)
    (rs : List ReactionId) (x : Settlement) : Prop where
  promise : ∀ q, s'.promise q = if q = p then x.state (!rs.isEmpty) else s.promise q
  size : s'.promises.size = s.promises.size
  reactions : s'.reactions = s.reactions
  jobs : s'.jobs = s.jobs ++ rs.map fun r => .react r x
  unhandled : s'.unhandled =
    if (x.state (!rs.isEmpty)).isUnhandled then s.unhandled ++ [p] else s.unhandled
  host : s'.host =
    if (x.state (!rs.isEmpty)).isUnhandled then track p .unhandled s.host else s.host

inductive Attempts (track : Tracker σ) (s s' : Machine σ κ) (c : Capability) : Prop
  | spent : s.isSpent c → s' = s → Attempts track s s' c
  | follows {rs : List ReactionId} {resolved : Bool} (followed : PromiseId) :
      s.promise c.promise = .pending rs resolved →
        s' = (s.setPromise c.promise (.pending rs true)).enqueue (.adopt c.promise followed) →
          Attempts track s s' c
  | concludes {rs : List ReactionId} {resolved : Bool} (x : Settlement) :
      s.promise c.promise = .pending rs resolved → s.Concludes track s' c.promise rs x →
        Attempts track s s' c

theorem fulfil_concludes (hp : s.Made p) {rs : List ReactionId} {b : Bool}
    (hs : s.promise p = .pending rs b) (v : Value) :
    s.Concludes track (s.fulfil p v) p rs (.fulfilled v) := by
  rw [fulfil, hs]
  exact ⟨promise_setPromise hp _, size_setPromise _ _ _, rfl, rfl, rfl, rfl⟩

theorem rejectPending_concludes (hp : s.Made p) {rs : List ReactionId} {b : Bool}
    (hs : s.promise p = .pending rs b) (e : Value) :
    s.Concludes track (s.rejectPending track p e) p rs (.rejected e) := by
  rw [rejectPending, hs]
  cases rs with
  | nil => exact ⟨promise_setPromise hp _, size_setPromise _ _ _, rfl, rfl, rfl, rfl⟩
  | cons r rest => exact ⟨promise_setPromise hp _, size_setPromise _ _ _, rfl, rfl, rfl, rfl⟩

/-- Marking the promise as resolved first makes no difference. -/
theorem Concludes.marked {rs : List ReactionId} {b : Bool} {x : Settlement} {s₁ : Machine σ κ}
    (h : s₁.Concludes track s' p rs x) (hs : s.promise p = .pending rs b)
    (hp : s.Made p) (hpromises : s₁.promises = (s.markResolved p).promises)
    (hreactions : s₁.reactions = s.reactions) (hjobs : s₁.jobs = s.jobs)
    (hunhandled : s₁.unhandled = s.unhandled) (hhost : s₁.host = s.host) :
    s.Concludes track s' p rs x := by
  have hmark : s.markResolved p = s.setPromise p (.pending rs true) := by rw [markResolved, hs]
  have hpromise : ∀ q, q ≠ p → s₁.promise q = s.promise q := fun q hq => by
    rw [promise_of_promises hpromises, hmark, promise_setPromise hp, if_neg hq]
  refine ⟨fun q => ?_, ?_, h.reactions.trans hreactions, h.jobs.trans (by rw [hjobs]),
    h.unhandled.trans (by rw [hunhandled]), h.host.trans (by rw [hhost])⟩
  · rw [h.promise]
    split
    · rfl
    · exact hpromise q ‹_›
  · rw [h.size, hpromises, hmark, size_setPromise]

section Settle

variable (track) {c : Capability}

theorem pending_of_not_isSpent (h : ¬s.isSpent c) :
    ∃ rs b, s.promise c.promise = .pending rs b := by
  have hnone := settlement?_of_not_isSpent h
  cases hs : s.promise c.promise with
  | pending rs b => exact ⟨rs, b, rfl⟩
  | fulfilled v | rejected e handled =>
    rw [hs] at hnone
    cases hnone

variable {rs : List ReactionId} {b : Bool} (hp : s.Made c.promise)
  (hs : s.promise c.promise = .pending rs b) (h : ¬s.isSpent c)
include hp hs h

theorem reject_concludes (e : Value) :
    s.Concludes track (s.reject track c e) c.promise rs (.rejected e) := by
  rw [reject, if_neg h]
  exact rejectPending_concludes hp hs e

omit h in
theorem markResolved_pending :
    s.markResolved c.promise = s.setPromise c.promise (.pending rs true) ∧
    (s.markResolved c.promise).Made c.promise ∧
    (s.markResolved c.promise).promise c.promise = .pending rs true := by
  have hmark : s.markResolved c.promise = s.setPromise c.promise (.pending rs true) := by
    rw [markResolved, hs]
  refine ⟨hmark, ?_, ?_⟩
  · rwa [Made, hmark, size_setPromise]
  · rw [hmark, promise_setPromise hp, if_pos rfl]

theorem resolve_concludes {v : Value} (hv : ∀ q, v ≠ .promise q) :
    s.Concludes track (s.resolve track c v) c.promise rs (.fulfilled v) := by
  obtain ⟨hmark, hmade, hpending⟩ := markResolved_pending hp hs
  have hfulfil : s.resolve track c v = (s.markResolved c.promise).fulfil c.promise v := by
    rw [resolve, if_neg h]
    cases v with
    | promise q => exact absurd rfl (hv q)
    | _ => rfl
  rw [hfulfil]
  refine (fulfil_concludes hmade hpending v).marked hs hp rfl ?_ ?_ ?_ ?_
  all_goals rw [hmark]; rfl

theorem resolve_self : ∃ e, s.Concludes track (s.resolve track c (.promise c.promise)) c.promise rs
    (.rejected (.error e)) := by
  obtain ⟨hmark, hmade, hpending⟩ := markResolved_pending hp hs
  rw [resolve, if_neg h]
  dsimp only
  rw [if_pos rfl]
  refine ⟨_, Concludes.marked (rejectPending_concludes
    (s := ((s.markResolved c.promise).newError .typeError
      "Tried to resolve a promise with itself.").2) hmade hpending _) hs hp rfl ?_ ?_ ?_ ?_⟩
  all_goals rw [hmark]; rfl

theorem resolve_follows {q : PromiseId} (hq : q ≠ c.promise) : s.resolve track c (.promise q) =
    (s.setPromise c.promise (.pending rs true)).enqueue (.adopt c.promise q) := by
  rw [resolve, if_neg h, (markResolved_pending hp hs).1]
  exact if_neg hq

end Settle

theorem settle_attempts (track : Tracker σ) {c : Capability} (hp : s.Made c.promise)
    (result : Except Value Value) :
    s.Attempts track (s.settle track c result) c := by
  by_cases hspent : s.isSpent c
  · refine .spent hspent ?_
    cases result with
    | ok v => exact if_pos hspent
    | error e => exact if_pos hspent
  obtain ⟨rs, b, hs⟩ := pending_of_not_isSpent hspent
  cases result with
  | error e => exact .concludes _ hs (reject_concludes track hp hs hspent e)
  | ok v =>
    by_cases hv : ∃ q, v = .promise q
    · obtain ⟨q, rfl⟩ := hv
      by_cases hq : q = c.promise
      · subst hq
        obtain ⟨e, hself⟩ := resolve_self track hp hs hspent
        exact .concludes _ hs hself
      · exact .follows q hs (resolve_follows track hp hs hspent hq)
    · exact .concludes _ hs (resolve_concludes track hp hs hspent (not_exists.1 hv))

end Machine

end ModuleGraph

import ModuleGraph.Proofs.Histories.Reactions

/-! # Rejections are tracked

A promise that is rejected without a reaction is put on the list of unhandled rejections, and the
host is told so. It stays there until somebody waits for it or looks at it; then it is taken off,
and the host is told that as well. A promise that somebody has waited for before it is rejected is
never on the list. -/

namespace ModuleGraph

variable {σ κ : Type}

/-! ## What a history tells of rejections -/

def Incident.rejects? : Incident → Option PromiseId
  | .settled p (.rejected _) => some p
  | .settled _ (.fulfilled _) | .attached .. | .lost _ | .consumed _ | .ran .. => none

def rejectionsIn (es : List Incident) : List PromiseId := es.filterMap Incident.rejects?

/-- Somebody has waited for a promise, or has looked at it after its rejection. -/
def Touched (es : List Incident) (p : PromiseId) : Prop :=
  (∃ r, .attached p r ∈ es) ∨ .consumed p ∈ es

section Incidents

variable {es es' : List Incident} {p : PromiseId}

@[simp] theorem rejectionsIn_append (es es' : List Incident) :
    rejectionsIn (es ++ es') = rejectionsIn es ++ rejectionsIn es' := List.filterMap_append

theorem mem_rejectionsIn : p ∈ rejectionsIn es ↔ ∃ e, .settled p (.rejected e) ∈ es := by
  rw [rejectionsIn, List.mem_filterMap]
  constructor
  · rintro ⟨e, he, hp⟩
    match e, hp with
    | .settled q (.rejected x), hp =>
      cases hp
      exact ⟨x, he⟩
  · rintro ⟨e, he⟩
    exact ⟨_, he, rfl⟩

theorem rejectionsIn_sublist (es : List Incident) : (rejectionsIn es).Sublist (settledIn es) := by
  induction es with
  | nil => exact .slnil
  | cons e rest ih =>
    rw [rejectionsIn, settledIn, List.filterMap_cons, List.filterMap_cons]
    cases e with
    | settled p x =>
      cases x with
      | rejected => exact ih.cons_cons _
      | fulfilled => exact ih.cons _
    | attached | lost | consumed | ran => exact ih

theorem touched_append : Touched (es ++ es') p ↔ Touched es p ∨ Touched es' p := by
  simp only [Touched, List.mem_append, exists_or]
  tauto

theorem not_touched_nil : ¬Touched [] p := by simp [Touched]

end Incidents

theorem PromiseState.isUnhandled_iff {st : PromiseState} :
    st.isUnhandled ↔ ∃ e, st = .rejected e false := by
  cases st with
  | rejected e handled => simp [isUnhandled]
  | pending | fulfilled => simp [isUnhandled]

namespace Machine

variable {track : Tracker σ} {ledger : σ → List (PromiseId × RejectionEvent)}
variable {owned : σ → PromiseId → Prop} {hosts : Set (Host σ κ)} {rank : Host σ κ → Nat} {h₀ : σ}
variable {s s' : Machine σ κ} {p q : PromiseId} {es es' : List Incident}

/-! ## What a tick does to rejections -/

/-- What a tick means for rejections: nothing; one promise is rejected; or a rejected promise comes
to be handled. -/
inductive Marks (track : Tracker σ) (ledger : σ → List (PromiseId × RejectionEvent))
    (s : Machine σ κ) (es : List Incident) (s' : Machine σ κ) : Prop
  | nothing : (∀ p e handled, s'.promise p = .rejected e handled ↔
        s.promise p = .rejected e handled) →
      s'.unhandled = s.unhandled → ledger s'.host = ledger s.host → rejectionsIn es = [] →
      (∀ p e, Touched es p → s.promise p ≠ .rejected e false) →
      (∀ p, .consumed p ∈ es → ∃ e, s.promise p = .rejected e true) → Marks track ledger s es s'
  | rejected {rs : List ReactionId} {resolved : Bool} (p : PromiseId) (e : Value) :
      s.promise p = .pending rs resolved →
      (∀ q, s'.promise q = if q = p then .rejected e (!rs.isEmpty) else s.promise q) →
      s'.unhandled = (if rs.isEmpty then s.unhandled ++ [p] else s.unhandled) →
      s'.host = (if rs.isEmpty then track p .unhandled s.host else s.host) →
      rejectionsIn es = [p] → (∀ q, ¬Touched es q) → Marks track ledger s es s'
  | handled (p : PromiseId) (e : Value) : s.promise p = .rejected e false →
      (∀ q, s'.promise q = if q = p then .rejected e true else s.promise q) →
      s'.unhandled = s.unhandled.filter (· != p) → s'.host = track p .handled s.host →
      rejectionsIn es = [] → (∀ q, Touched es q ↔ q = p) → Marks track ledger s es s'

/-- Promises that are not rejected may change in other ways. -/
theorem Marks.of_quiet (hrejected : ∀ p e handled, s'.promise p = .rejected e handled ↔
      s.promise p = .rejected e handled) (hunhandled : s'.unhandled = s.unhandled)
    (hledger : ledger s'.host = ledger s.host) (hes : rejectionsIn es = [])
    (htouched : ∀ p, ¬Touched es p) : s.Marks track ledger es s' :=
  .nothing hrejected hunhandled hledger hes (fun p _ hp => absurd hp (htouched p))
    fun p hp => absurd (.inr hp) (htouched p)

theorem marks_newPromise (s : Machine σ κ) {st : PromiseState}
    (hst : ∀ e handled, st ≠ .rejected e handled) (hes : rejectionsIn es = [])
    (htouched : ∀ p, ¬Touched es p) : s.Marks track ledger es (s.newPromise st).2 := by
  refine .of_quiet (fun p e handled => ?_) rfl rfl hes htouched
  rw [promise_newPromise]
  split
  · rename_i e'
    rw [e', promise_of_not_made (not_made_nextPromise s)]
    exact iff_of_false (hst e handled) nofun
  · exact Iff.rfl

theorem touched_attached {r : ReactionId} : Touched [.attached p r] q ↔ q = p := by
  simp [Touched]

theorem marks_attach (hp : s.Made p) (reaction : Reaction κ) :
    s.Marks track ledger [.attached p s.nextReaction] (s.attach track p reaction) := by
  have hpromise := promise_attach track s p reaction hp
  have hunhandled := unhandled_attach track s p reaction
  have hhost := host_attach track s p reaction
  cases hst : s.promise p with
  | rejected e handled =>
    rw [hst] at hpromise hunhandled hhost
    cases handled with
    | false => exact .handled p e hst hpromise hunhandled hhost rfl fun q => touched_attached
    | true =>
      refine .nothing (fun q x handled => ?_) hunhandled (congrArg ledger hhost) rfl
        (fun q x hq => ?_) (by simp)
      · rw [hpromise]
        split
        · rename_i e'
          rw [e', hst]
          rfl
        · exact Iff.rfl
      · rw [touched_attached.1 hq, hst]
        nofun
  | pending rs resolved | fulfilled v =>
    rw [hst] at hpromise hunhandled hhost
    refine .nothing (fun q x handled => ?_) hunhandled (congrArg ledger hhost) rfl
      (fun q x hq => ?_) (by simp)
    · rw [hpromise]
      split
      · rename_i e'
        rw [e', hst]
        exact iff_of_false nofun nofun
      · exact Iff.rfl
    · rw [touched_attached.1 hq, hst]
      nofun

theorem marks_settle {c : Capability} (hc : s.Made c.promise) (result : Except Value Value) :
    s.Marks track ledger (s.settling (s.settle track c result) c.promise)
      (s.settle track c result) := by
  obtain ⟨-, hs⟩ | ⟨q, hp, hs⟩ | ⟨x, hp, hs⟩ := settle_attempts track hc result
  · rw [hs, settling_eq_nil rfl]
    exact .of_quiet (fun _ _ _ => Iff.rfl) rfl rfl rfl fun _ => not_touched_nil
  · have hpromise : ∀ q, (s.settle track c result).promise q =
        if q = c.promise then .pending _ true else s.promise q := fun q => by
      rw [hs]
      exact promise_setPromise hc _ q
    rw [settling_eq_nil (by rw [hpromise, if_pos rfl, hp]; rfl)]
    refine .of_quiet (fun q e handled => ?_) (by rw [hs]; rfl) (by rw [hs]; rfl) rfl
      fun _ => not_touched_nil
    rw [hpromise]
    split
    · rename_i e'
      rw [e', hp]
      exact iff_of_false nofun nofun
    · exact Iff.rfl
  · have hnone : (s.promise c.promise).settlement? = none := by
      rw [hp]
      rfl
    rw [settling_of_pending hnone (by rw [hs.promise, if_pos rfl, Settlement.settlement?_state])]
    have htouched : ∀ q, ¬Touched [.settled c.promise x] q := by simp [Touched]
    cases x with
    | fulfilled v =>
      refine .of_quiet (fun q e handled => ?_) hs.unhandled (congrArg ledger hs.host) rfl htouched
      rw [hs.promise]
      split
      · rename_i e'
        rw [e', hp]
        exact iff_of_false nofun nofun
      · exact Iff.rfl
    | rejected e =>
      refine .rejected c.promise e hp hs.promise (hs.unhandled.trans ?_) (hs.host.trans ?_) rfl
        htouched
      all_goals
        rename_i rs resolved
        cases rs <;> rfl

theorem marks_markHandled (s : Machine σ κ) (p : PromiseId) :
    s.Marks track ledger (s.consuming p) (s.markHandled track p) := by
  have htouched : ∀ q, Touched [.consumed p] q ↔ q = p := fun q => by simp [Touched]
  cases hst : s.promise p with
  | rejected e handled =>
    have hp : s.Made p := by
      by_contra hp
      rw [promise_of_not_made hp] at hst
      cases hst
    have heq := markHandled_eq track s p
    rw [hst] at heq
    rw [consuming, hst]
    cases handled with
    | false =>
      refine .handled p e hst (fun q => ?_) ?_ ?_ rfl htouched
      · rw [promise_markHandled hp, hst]
        rfl
      · rw [heq]
        rfl
      · rw [heq]
        rfl
    | true =>
      rw [heq]
      refine .nothing (fun _ _ _ => Iff.rfl) rfl rfl rfl (fun q x hq => ?_) fun q hq => ?_
      · rw [(htouched q).1 hq, hst]
        rintro ⟨⟩
      · obtain rfl := (htouched q).1 (.inr hq)
        exact ⟨e, hst⟩
  | pending | fulfilled =>
    rw [consuming, markHandled_eq, hst]
    exact .of_quiet (fun _ _ _ => Iff.rfl) rfl rfl rfl fun _ => not_touched_nil

theorem Tick.marks (h : s.Tick track ledger es s') : s.Marks track ledger es s' := by
  cases h with
  | aside h =>
    exact .of_quiet (fun p _ _ => by rw [promise_of_promises h.promises]) h.unhandled h.ledger rfl
      fun _ => not_touched_nil
  | newPromise => exact marks_newPromise s nofun rfl fun _ => not_touched_nil
  | newFulfilled v => exact marks_newPromise s nofun rfl (by simp [Touched])
  | attach reaction hp => exact marks_attach hp reaction
  | lose reaction hp =>
    rw [attach_of_not_made reaction hp]
    exact .of_quiet (fun _ _ _ => Iff.rfl) rfl rfl rfl (by simp [Touched])
  | settle result hc => exact marks_settle hc result
  | markHandled p => exact marks_markHandled s p
  | takeReaction | takeJob | queueImport =>
    exact .of_quiet (fun _ _ _ => Iff.rfl) rfl rfl rfl (by simp [Touched])

/-! ## The list of unhandled rejections -/

/-- What a history has made of the list of unhandled rejections, and of rejected promises. -/
structure Lists (es : List Incident) (s : Machine σ κ) : Prop where
  listed : s.unhandled = (rejectionsIn es).filter fun p => (s.promise p).isUnhandled
  touched : ∀ p e handled, s.promise p = .rejected e handled → (handled = true ↔ Touched es p)
  consumed : ∀ p, .consumed p ∈ es → ∃ e, s.promise p = .rejected e true

theorem lists_initial (h : σ) : (initial h : Machine σ κ).Lists [] where
  listed := rfl
  touched p e handled hp := by
    rw [promise_of_not_made (show ¬(initial h : Machine σ κ).Made p from Nat.not_lt_zero _)] at hp
    cases hp
  consumed p hp := nomatch hp

/-- A pending promise was touched just if it holds a reaction. -/
theorem Accounts.touched_pending (h : s.Accounts es) (hl : s.Lists es) {rs : List ReactionId}
    {resolved : Bool} (hp : s.promise p = .pending rs resolved) :
    (!rs.isEmpty) = true ↔ Touched es p := by
  have hheld : attachedTo es p = rs := by
    have hnone : among es p (runsIn es ++ s.queue) = [] := by
      refine List.filter_eq_nil_iff.2 fun r hr hattached => ?_
      obtain ⟨⟨r, x⟩, hx, rfl⟩ := List.mem_map.1 hr
      have hsettled := h.result p r x (mem_attachedTo.1 (of_decide_eq_true hattached)) hx
      rw [hp] at hsettled
      cases hsettled
    rw [h.order p, hnone, hp]
    rfl
  constructor
  · intro hrs
    obtain ⟨r, hr⟩ := List.exists_mem_of_ne_nil rs (by simpa using hrs)
    exact .inl ⟨r, mem_attachedTo.1 (hheld ▸ hr)⟩
  · rintro (⟨r, hr⟩ | hconsumed)
    · have hr : r ∈ rs := hheld ▸ mem_attachedTo.2 hr
      simpa using List.ne_nil_of_mem hr
    · obtain ⟨e, he⟩ := hl.consumed p hconsumed
      rw [hp] at he
      cases he

theorem Records.not_rejected (h : (initial h₀ : Machine σ κ).Records es s) {rs : List ReactionId}
    {resolved : Bool} (hp : s.promise p = .pending rs resolved) : p ∉ rejectionsIn es := by
  intro hmem
  obtain ⟨e, he⟩ := mem_rejectionsIn.1 hmem
  have hsettled := (h.settlement p (.rejected e)).2 (.inr he)
  rw [hp] at hsettled
  cases hsettled

section Marks

variable (h : s.Lists es)
include h

theorem Lists.keeps (hrejected : ∀ p e handled, s'.promise p = .rejected e handled ↔
      s.promise p = .rejected e handled) (hunhandled : s'.unhandled = s.unhandled)
    (hes : rejectionsIn es' = [])
    (htouched : ∀ p e, Touched es' p → s.promise p ≠ .rejected e false)
    (hconsumed : ∀ p, .consumed p ∈ es' → ∃ e, s.promise p = .rejected e true) :
    s'.Lists (es ++ es') where
  listed := by
    have hsame : ∀ p, (s'.promise p).isUnhandled = (s.promise p).isUnhandled := fun p => by
      rw [Bool.eq_iff_iff, PromiseState.isUnhandled_iff, PromiseState.isUnhandled_iff]
      exact exists_congr fun e => hrejected p e false
    rw [hunhandled, h.listed, rejectionsIn_append, hes, List.append_nil]
    exact List.filter_congr fun p _ => (hsame p).symm
  touched p e handled hp := by
    have hp := (hrejected p e handled).1 hp
    rw [touched_append, ← h.touched p e handled hp]
    refine ⟨.inl, fun hh => hh.elim id fun ht => ?_⟩
    cases handled with
    | false => exact absurd hp (htouched p e ht)
    | true => rfl
  consumed p hp := by
    obtain ⟨e, he⟩ := (List.mem_append.1 hp).elim (h.consumed p) (hconsumed p)
    exact ⟨e, (hrejected p e true).2 he⟩

variable {p : PromiseId} {e : Value}

/-- A promise that is rejected was not so before, and it is handled if somebody waits for it. -/
theorem Lists.rejects (haccounts : s.Accounts es)
    (hrecords : (initial h₀ : Machine σ κ).Records es s)
    {rs : List ReactionId} {resolved : Bool} (hp : s.promise p = .pending rs resolved)
    (hpromise : ∀ q, s'.promise q = if q = p then .rejected e (!rs.isEmpty) else s.promise q)
    (hunhandled : s'.unhandled = if rs.isEmpty then s.unhandled ++ [p] else s.unhandled)
    (hes : rejectionsIn es' = [p]) (htouched : ∀ q, ¬Touched es' q) : s'.Lists (es ++ es') where
  listed := by
    have hnew : p ∉ rejectionsIn es := hrecords.not_rejected hp
    have hold : (rejectionsIn es).filter (fun q => (s'.promise q).isUnhandled) = s.unhandled := by
      rw [h.listed]
      refine List.filter_congr fun q hq => ?_
      have hne : q ≠ p := by
        rintro rfl
        exact hnew hq
      rw [hpromise, if_neg hne]
    rw [rejectionsIn_append, hes, List.filter_append, hold, List.filter_singleton, hpromise,
      if_pos rfl, hunhandled]
    cases rs with
    | nil => rfl
    | cons r rest => exact (List.append_nil _).symm
  touched q x handled hq := by
    rw [touched_append, or_iff_left (htouched q)]
    rw [hpromise] at hq
    by_cases e' : q = p
    · rw [if_pos e'] at hq
      cases hq
      rw [e']
      exact haccounts.touched_pending h hp
    · rw [if_neg e'] at hq
      exact h.touched q x handled hq
  consumed q hq := by
    have hq := (List.mem_append.1 hq).resolve_right fun hq => htouched q (.inr hq)
    obtain ⟨x, hx⟩ := h.consumed q hq
    have hne : q ≠ p := by
      rintro rfl
      rw [hp] at hx
      cases hx
    exact ⟨x, by rw [hpromise, if_neg hne, hx]⟩

theorem Lists.handles
    (hpromise : ∀ q, s'.promise q = if q = p then .rejected e true else s.promise q)
    (hunhandled : s'.unhandled = s.unhandled.filter (· != p)) (hes : rejectionsIn es' = [])
    (htouched : ∀ q, Touched es' q ↔ q = p) : s'.Lists (es ++ es') where
  listed := by
    rw [hunhandled, h.listed, rejectionsIn_append, hes, List.append_nil, List.filter_filter]
    refine List.filter_congr fun q _ => ?_
    rw [hpromise]
    by_cases e' : q = p
    · simp [e', PromiseState.isUnhandled]
    · simp [e']
  touched q x handled hq := by
    rw [touched_append, htouched]
    rw [hpromise] at hq
    by_cases e' : q = p
    · rw [if_pos e'] at hq
      cases hq
      simp [e']
    · rw [if_neg e'] at hq
      simp [e', h.touched q x handled hq]
  consumed q hq := by
    rw [hpromise]
    split
    · exact ⟨e, rfl⟩
    · obtain hq | hq := List.mem_append.1 hq
      · exact h.consumed q hq
      · exact absurd ((htouched q).1 (.inr hq)) ‹_›

theorem Lists.marks (haccounts : s.Accounts es) (hrecords : (initial h₀ : Machine σ κ).Records es s)
    (hmarks : s.Marks track ledger es' s') : s'.Lists (es ++ es') := by
  cases hmarks with
  | nothing hrejected hunhandled _ hes htouched hconsumed =>
    exact h.keeps hrejected hunhandled hes htouched hconsumed
  | rejected p e hp hpromise hunhandled _ hes htouched =>
    exact h.rejects haccounts hrecords hp hpromise hunhandled hes htouched
  | handled p e _ hpromise hunhandled _ hes htouched =>
    exact h.handles hpromise hunhandled hes htouched

end Marks

theorem History.lists (h : (initial h₀).History track ledger es s) : s.Lists es := by
  induction h with
  | nil => exact lists_initial h₀
  | snoc hbefore htick ih => exact ih.marks hbefore.accounts hbefore.records htick.marks

/-! ## What the host is told -/

/-- The host writes down all that it is told, and was told nothing yet. -/
structure WritesDown (track : Tracker σ) (ledger : σ → List (PromiseId × RejectionEvent)) (h : σ) :
    Prop where
  tells : ∀ p event h, ledger (track p event h) = ledger h ++ [(p, event)]
  clear : ledger h = []

def toldOf (told : List (PromiseId × RejectionEvent)) (p : PromiseId) : List RejectionEvent :=
  (told.filter (·.1 = p)).map (·.2)

theorem toldOf_append (told : List (PromiseId × RejectionEvent)) (p q : PromiseId)
    (event : RejectionEvent) : toldOf (told ++ [(p, event)]) q =
      if q = p then toldOf told q ++ [event] else toldOf told q := by
  by_cases e : q = p <;> simp [toldOf, e, Ne.symm]

end Machine

/-- What can have been told about a promise in this state. One that was rejected while it had a
reaction is handled, but nothing was told about it. -/
inductive PromiseState.Told : PromiseState → List RejectionEvent → Prop
  | pending (reactions : List ReactionId) (resolved : Bool) : Told (.pending reactions resolved) []
  | fulfilled (v : Value) : Told (.fulfilled v) []
  | unhandled (e : Value) : Told (.rejected e false) [.unhandled]
  | awaited (e : Value) : Told (.rejected e true) []
  | handled (e : Value) : Told (.rejected e true) [.unhandled, .handled]

namespace Machine

variable {track : Tracker σ} {ledger : σ → List (PromiseId × RejectionEvent)}
variable {owned : σ → PromiseId → Prop} {hosts : Set (Host σ κ)} {rank : Host σ κ → Nat} {h₀ : σ}
variable {s s' : Machine σ κ} {p q : PromiseId} {es es' : List Incident}

theorem told_of_not_rejected {st : PromiseState} (hst : ∀ e handled, st ≠ .rejected e handled)
    {told : List RejectionEvent} : st.Told told ↔ told = [] := by
  cases st with
  | pending rs resolved =>
    refine ⟨fun h => ?_, fun h => h ▸ .pending rs resolved⟩
    cases h
    rfl
  | fulfilled v =>
    refine ⟨fun h => ?_, fun h => h ▸ .fulfilled v⟩
    cases h
    rfl
  | rejected e handled => exact absurd rfl (hst e handled)

theorem told_iff_of_rejected {st st' : PromiseState}
    (h : ∀ e handled, st' = .rejected e handled ↔ st = .rejected e handled)
    {told : List RejectionEvent} : st'.Told told ↔ st.Told told := by
  by_cases hst : ∃ e handled, st = .rejected e handled
  · obtain ⟨e, handled, hst⟩ := hst
    rw [hst, (h e handled).2 hst]
  · have hst : ∀ e handled, st ≠ .rejected e handled := fun e handled he => hst ⟨e, handled, he⟩
    have hst' : ∀ e handled, st' ≠ .rejected e handled := fun e handled he =>
      hst e handled ((h e handled).1 he)
    rw [told_of_not_rejected hst, told_of_not_rejected hst']

theorem told_initial (hk : WritesDown track ledger h₀) (p : PromiseId) :
    ((initial h₀ : Machine σ κ).promise p).Told (toldOf (ledger h₀) p) := by
  have hmade : ¬(initial h₀ : Machine σ κ).Made p := Nat.not_lt_zero _
  rw [promise_of_not_made hmade, hk.clear]
  exact .pending [] false

theorem Marks.told (hk : WritesDown track ledger h₀) (hmarks : s.Marks track ledger es s')
    (h : ∀ p, (s.promise p).Told (toldOf (ledger s.host) p)) (p : PromiseId) :
    (s'.promise p).Told (toldOf (ledger s'.host) p) := by
  cases hmarks with
  | nothing hrejected _ hledger =>
    rw [hledger, told_iff_of_rejected (hrejected p)]
    exact h p
  | @rejected rs resolved q e hq hpromise _ hhost =>
    rw [hpromise, hhost]
    by_cases e' : p = q
    · -- Nothing was told about it before.
      have hnil : toldOf (ledger s.host) p = [] :=
        (told_of_not_rejected (by rw [e', hq]; nofun)).1 (h p)
      rw [if_pos e']
      cases rs with
      | nil =>
        rw [List.isEmpty_nil, if_pos rfl, hk.tells, toldOf_append, if_pos e', hnil]
        exact .unhandled e
      | cons r rest =>
        rw [List.isEmpty_cons, if_neg nofun, hnil]
        exact .awaited e
    · rw [if_neg e']
      split
      · rw [hk.tells, toldOf_append, if_neg e']
        exact h p
      · exact h p
  | handled q e hq hpromise _ hhost =>
    rw [hpromise, hhost, hk.tells, toldOf_append]
    by_cases e' : p = q
    · have hp := h p
      rw [e', hq] at hp
      rw [if_pos e', if_pos e', e']
      generalize toldOf (ledger s.host) q = told at hp
      cases hp
      exact .handled e
    · rw [if_neg e', if_neg e']
      exact h p

theorem History.told (hk : WritesDown track ledger h₀) (h : (initial h₀).History track ledger es s)
    (p : PromiseId) : (s.promise p).Told (toldOf (ledger s.host) p) := by
  induction h generalizing p with
  | nil => exact told_initial hk p
  | snoc _ htick ih => exact htick.marks.told hk ih p

/-! ## Rejections are tracked exactly -/

/-- The list of unhandled rejections at a machine with this history. -/
structure TracksRejections (es : List Incident) (s : Machine σ κ) : Prop where
  /-- Promises are rejected once. -/
  once : (rejectionsIn es).Nodup
  rejected : ∀ p, p ∈ rejectionsIn es ↔ ∃ e handled, s.promise p = .rejected e handled
  /-- The list has them in the order in which they were rejected. -/
  listed : s.unhandled = (rejectionsIn es).filter fun p => (s.promise p).isUnhandled
  nodup : s.unhandled.Nodup
  /-- Those on the list are the rejected promises that nobody has handled. -/
  unhandled : ∀ p, p ∈ s.unhandled ↔ ∃ e, s.promise p = .rejected e false
  /-- These are the ones that nobody has waited for or looked at. -/
  untouched : ∀ p, p ∈ s.unhandled ↔ p ∈ rejectionsIn es ∧ ¬Touched es p

theorem History.tracksRejections (h : (initial h₀).History track ledger es s) :
    s.TracksRejections es := by
  have honce : (rejectionsIn es).Nodup := h.records.once.sublist (rejectionsIn_sublist es)
  have hrejected : ∀ p, p ∈ rejectionsIn es ↔ ∃ e handled, s.promise p = .rejected e handled := by
    intro p
    have hnew : ((initial h₀ : Machine σ κ).promise p).settlement? = none :=
      congrArg PromiseState.settlement? (promise_of_not_made (Nat.not_lt_zero _))
    have hsettled : ∀ x, (s.promise p).settlement? = some x ↔ .settled p x ∈ es := fun x => by
      rw [h.records.settlement, hnew]
      simp
    rw [mem_rejectionsIn]
    refine exists_congr fun e => (hsettled _).symm.trans ?_
    cases s.promise p <;> simp [PromiseState.settlement?]
  have hmem : ∀ p, p ∈ s.unhandled ↔ p ∈ rejectionsIn es ∧ (s.promise p).isUnhandled := fun p => by
    rw [h.lists.listed, List.mem_filter]
  refine ⟨honce, hrejected, h.lists.listed, ?_, fun p => ?_, fun p => ?_⟩
  · rw [h.lists.listed]
    exact honce.filter _
  · rw [hmem, PromiseState.isUnhandled_iff, hrejected]
    exact and_iff_right_of_imp (Exists.imp fun _ he => ⟨false, he⟩)
  · rw [hmem]
    refine and_congr_right fun hp => ?_
    obtain ⟨e, handled, he⟩ := (hrejected p).1 hp
    rw [← h.lists.touched p e handled he, he]
    simp [PromiseState.isUnhandled]

def NeverListed (track : Tracker σ) (ledger : σ → List (PromiseId × RejectionEvent))
    (s : Machine σ κ) (p : PromiseId) : Prop :=
  ∀ es s', s.History track ledger es s' → p ∉ s'.unhandled

theorem History.neverListed (h : (initial h₀).History track ledger es s) (hp : Touched es p) :
    s.NeverListed track ledger p := fun _ _ h' hmem =>
  (((h.append h').tracksRejections.untouched p).1 hmem).2 (touched_append.2 (.inl hp))

end Machine

/-! ## Promises of bodies and leaves -/

section Engine

open Machine

variable {track : Tracker σ} {ledger : σ → List (PromiseId × RejectionEvent)}
variable {owned : σ → PromiseId → Prop} {h₀ : σ}
variable {host : Host σ κ} {m : ModuleId} {s s' : Machine σ κ}

/-- The promise of a body that is started has a reaction before the body runs. -/
theorem Host.Evolves.startAsyncBody (h : host.Evolves track ledger owned)
    (hs : s.Underway track ledger owned h₀) {a : Unit}
    (hrun : ModuleGraph.startAsyncBody host m s = some (a, s')) :
    ∃ es, s.History track ledger es s' ∧ s'.NeverListed track ledger s.nextPromise := by
  obtain ⟨hs, es, he⟩ := hs
  rw [ModuleGraph.startAsyncBody, Run.make_bind, Run.update_bind, h.tracker] at hrun
  obtain ⟨execution, s₁, hbody, hrun⟩ := Run.bind_eq_some.1 hrun
  have hmade : s.newCapability.2.Made s.nextPromise := made_nextPromise s _
  have hnew : s.Evolves track ledger owned s.newCapability.2 := evolves_newPromise s ⟨rfl, rfl⟩
  have hbegin : s.History track ledger [.attached s.nextPromise s.nextReaction]
      (s.newCapability.2.attach track s.nextPromise ⟨.bodyEnded m, none⟩) :=
    .append (.single (.newPromise s)) (.single (.attach s.newCapability.2 _ hmade))
  have hattach : s.newCapability.2.Evolves track ledger owned
      (s.newCapability.2.attach track s.nextPromise ⟨.bodyEnded m, none⟩) :=
    evolves_attach h.discreet _ _ (fun _ e => by cases e) (fun _ _ _ e => by cases e)
      fun _ _ e => by cases e
  obtain ⟨hattached, -⟩ := hattach (hnew hs).1
  have hran := h.carriesLink.runBody m _ _ _ hbody
  obtain ⟨-, es', he'⟩ := evolves_composes.trans hran (h.carriesLink.continueBody
    (c := s.newCapability.1) s₁ m execution
    (hran.made hattached ((attach_attached track s.newCapability.2 _ _).made hmade))) hattached
  have hhistory := hbegin.append he'
  cases hrun
  refine ⟨_, hhistory, (he.append hhistory).neverListed (.inl ⟨s.nextReaction, ?_⟩)⟩
  simp

/-- A module that requests a leaf takes over its error, and looks at its promise then. -/
theorem Host.Evolves.requireLeaf (h : host.Evolves track ledger owned)
    (hs : s.Underway track ledger owned h₀) {result : Except Value Unit}
    (hrun : ModuleGraph.requireLeaf host m s = some (result, s')) :
    ∃ p s₁ es, ModuleGraph.evaluateLeaf host m s = some (p, s₁) ∧ s.History track ledger es s' ∧
      (∀ e, result = .error e →
        s'.promise p = .rejected e true ∧ s'.NeverListed track ledger p) ∧
      ∀ u, result = .ok u → ∀ e handled, s'.promise p ≠ .rejected e handled := by
  obtain ⟨hs, es, he⟩ := hs
  obtain ⟨-, es', he'⟩ := h.carriesLink.requireLeaf m _ _ _ hrun hs
  have hhistory := he.append he'
  rw [ModuleGraph.requireLeaf, throwing_bind] at hrun
  obtain ⟨p, s₁, hleaf, hrun⟩ | ⟨e, hleaf, -⟩ := hrun
  · obtain ⟨q, hq, hleaf⟩ := Act.ofRun_eq_some.1 hleaf
    cases hq
    refine ⟨p, s₁, es', hleaf, he', ?_⟩
    rw [Act.view_bind, h.tracker] at hrun
    cases hst : s₁.promise p with
    | pending rs resolved | fulfilled v =>
      rw [hst] at hrun
      cases hrun
      exact ⟨fun e he => (by cases he), fun u _ e handled => by rw [hst]; rintro ⟨⟩⟩
    | rejected e handled =>
      rw [hst] at hrun
      cases hrun
      have hp : s₁.Made p := by
        by_contra hp
        rw [promise_of_not_made hp] at hst
        cases hst
      have hhandled : (s₁.markHandled track p).promise p = .rejected e true := by
        rw [promise_markHandled hp, if_pos rfl, hst]
        rfl
      refine ⟨fun x hx => ?_, fun u hu => by cases hu⟩
      cases hx
      exact ⟨hhandled, hhistory.neverListed ((hhistory.lists.touched p e true hhandled).1 rfl)⟩
  · obtain ⟨q, hq, -⟩ := Act.ofRun_eq_some.1 hleaf
    cases hq

end Engine

namespace Machine

variable {track : Tracker σ} {ledger : σ → List (PromiseId × RejectionEvent)}
variable {owned : σ → PromiseId → Prop} {hosts : Set (Host σ κ)} {rank : Host σ κ → Nat} {h₀ : σ}

/-- Whatever operations do is a history. At each machine of a history the list of unhandled
rejections is exact, and a host that writes down what it is told was told of a rejection at most
once, and at most once, and afterwards, that it is handled. The promises of bodies with top-level
await, and of leaves that fail a module which requests them, do not come to be on the list. -/
theorem rejections_are_tracked (h : Operates hosts rank track ledger owned) :
    (∀ s s' : Machine σ κ, s.Arises hosts track ledger owned h₀ →
      s.Uses hosts track ledger owned s' →
        s.Underway track ledger owned h₀ ∧ ∃ es, s.History track ledger es s') ∧
    (∀ es s, (initial h₀ : Machine σ κ).History track ledger es s → s.TracksRejections es ∧
      (WritesDown track ledger h₀ → ∀ p, (s.promise p).Told (toldOf (ledger s.host) p))) ∧
    (∀ host ∈ hosts, ∀ m s u s', s.Underway track ledger owned h₀ →
      startAsyncBody host m s = some (u, s') →
        ∃ es, s.History track ledger es s' ∧ s'.NeverListed track ledger s.nextPromise) ∧
    ∀ host ∈ hosts, ∀ m s result s', s.Underway track ledger owned h₀ →
      requireLeaf host m s = some (result, s') →
        ∃ p s₁ es, evaluateLeaf host m s = some (p, s₁) ∧ s.History track ledger es s' ∧
          (∀ e, result = .error e →
            s'.promise p = .rejected e true ∧ s'.NeverListed track ledger p) ∧
          ∀ u, result = .ok u → ∀ e handled, s'.promise p ≠ .rejected e handled := by
  exact ⟨fun s s' hs hs' => ⟨h.underway hs, h.continues (h.underway hs) hs'⟩,
    fun es s he => ⟨he.tracksRejections, fun hw p => he.told hw p⟩,
    fun host hhost m s u s' hs hrun => (h.evolves hhost).startAsyncBody hs hrun,
    fun host hhost m s result s' hs hrun => (h.evolves hhost).requireLeaf hs hrun⟩

end Machine

open Recorder in
/-- A callback has waited for a rejected promise and has failed with its reason: the promise of the
callback is on the list instead, and the host was told all that. -/
theorem rejections_are_tracked_rejected :
    Operates hosts (fun _ => 0) host.track id owned ∧
    Machine.WritesDown host.track id [] ∧
    (Machine.initial []).History host.track id story passedOn ∧
    rejected.unhandled = [⟨0⟩] ∧ passedOn.unhandled = [⟨1⟩] ∧
    passedOn.host = [(⟨0⟩, .unhandled), (⟨0⟩, .handled), (⟨1⟩, .unhandled)] ∧
    passedOn.TracksRejections story ∧
    ∀ p, (passedOn.promise p).Told (Machine.toldOf passedOn.host p) := by
  have hwrites : Machine.WritesDown host.track id [] := ⟨fun _ _ _ => rfl, rfl⟩
  obtain ⟨htracks, htold⟩ :=
    (Machine.rejections_are_tracked operates).2.1 story _ history_story
  exact ⟨operates, hwrites, history_story, rfl, rfl, rfl, htracks, htold hwrites⟩

end ModuleGraph

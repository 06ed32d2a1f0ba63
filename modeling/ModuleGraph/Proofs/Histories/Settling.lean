import ModuleGraph.Proofs.Histories.Uses

/-! # Promises are settled once

A promise that was settled stays as it is, except that a rejected one may come to be handled. A
capability that asks for an unresolved promise does nothing after its first use, whatever has been
done to the promise in between. -/

namespace ModuleGraph

open Relation

variable {σ κ α : Type}

namespace PromiseState

/-- What a promise may become: a resolved one stays resolved, and a settled one keeps its result. -/
def Becomes (st st' : PromiseState) : Prop :=
  match st with
  | .pending _ resolved => resolved = true → st'.phase.1 = true
  | .fulfilled v => st' = .fulfilled v
  | .rejected e handled =>
    ∃ handled', st' = .rejected e handled' ∧ (handled = true → handled' = true)

variable {st st' st'' : PromiseState} {x : Settlement}

theorem Becomes.refl (st : PromiseState) : st.Becomes st := by
  cases st with
  | pending rs resolved => exact id
  | fulfilled v => rfl
  | rejected e handled => exact ⟨handled, rfl, id⟩

theorem Becomes.resolved (h : st.Becomes st') (hst : st.phase.1 = true) : st'.phase.1 = true := by
  cases st with
  | pending rs resolved => exact h hst
  | fulfilled v =>
    rw [show st' = _ from h]
    rfl
  | rejected e handled =>
    obtain ⟨handled', rfl, -⟩ := h
    rfl

theorem Becomes.trans (h : st.Becomes st') (h' : st'.Becomes st'') : st.Becomes st'' := by
  cases st with
  | pending rs resolved => exact fun hr => h'.resolved (h hr)
  | fulfilled v =>
    cases h
    exact h'
  | rejected e handled =>
    obtain ⟨handled', rfl, himp⟩ := h
    obtain ⟨handled'', rfl, himp'⟩ := h'
    exact ⟨handled'', rfl, himp' ∘ himp⟩

theorem Becomes.settlement (h : st.Becomes st') (hx : st.settlement? = some x) :
    st'.settlement? = some x := by
  cases st with
  | pending rs resolved => cases hx
  | fulfilled v =>
    cases h
    exact hx
  | rejected e handled =>
    obtain ⟨handled', rfl, -⟩ := h
    exact hx

theorem becomes_handle (st : PromiseState) : st.Becomes st.handle := by
  cases st with
  | rejected e handled => exact ⟨true, rfl, fun _ => rfl⟩
  | pending | fulfilled => exact .refl _

theorem becomes_attach (st : PromiseState) (r : ReactionId) : st.Becomes (st.attach r) := by
  cases st with
  | pending rs resolved => exact id
  | fulfilled | rejected => exact becomes_handle _

theorem becomes_of_pending {rs : List ReactionId} {resolved : Bool} (h : st'.phase.1 = true) :
    (PromiseState.pending rs resolved).Becomes st' := fun _ => h

@[simp] theorem settlement?_handle (st : PromiseState) :
    st.handle.settlement? = st.settlement? := by
  cases st <;> rfl

@[simp] theorem settlement?_attach (st : PromiseState) (r : ReactionId) :
    (st.attach r).settlement? = st.settlement? := by
  cases st <;> rfl

end PromiseState

namespace Machine

variable {track : Tracker σ} {ledger : σ → α} {owned : σ → PromiseId → Prop}
variable {hosts : Set (Host σ κ)} {rank : Host σ κ → Nat} {h₀ : σ}
variable {s s' : Machine σ κ} {p q : PromiseId} {es es' : List Incident}

/-! ## What becomes of promises -/

theorem becomes_newPromise (s : Machine σ κ) (st : PromiseState) (p : PromiseId) :
    (s.promise p).Becomes ((s.newPromise st).2.promise p) := by
  rw [promise_newPromise]
  split
  · rename_i e
    rw [e, promise_of_not_made (not_made_nextPromise s)]
    exact fun hr => nomatch hr
  · exact .refl _

theorem Tick.becomes (h : s.Tick track ledger es s') (p : PromiseId) :
    (s.promise p).Becomes (s'.promise p) := by
  cases h with
  | aside h =>
    rw [promise_of_promises h.promises]
    exact .refl _
  | newPromise | newFulfilled => exact becomes_newPromise s _ p
  | attach reaction hq =>
    rw [promise_attach track s _ reaction hq]
    split
    · rename_i e
      exact e ▸ PromiseState.becomes_attach _ _
    · exact .refl _
  | lose reaction hq =>
    rw [attach_of_not_made reaction hq]
    exact .refl _
  | settle result hc =>
    obtain ⟨-, hs⟩ | ⟨q, hp, hs⟩ | ⟨x, hp, hs⟩ := settle_attempts track hc result
    · rw [hs]
      exact .refl _
    · rw [hs, enqueue]
      refine (promise_setPromise hc _ p).symm ▸ ?_
      split
      · rename_i e
        rw [e, hp]
        exact PromiseState.becomes_of_pending rfl
      · exact .refl _
    · rw [hs.promise]
      split
      · rename_i e
        rw [e, hp]
        refine PromiseState.becomes_of_pending ?_
        cases x <;> rfl
      · exact .refl _
  | markHandled q =>
    by_cases hq : s.Made q
    · rw [promise_markHandled hq]
      split
      · rename_i e
        exact e ▸ PromiseState.becomes_handle _
      · exact .refl _
    · rw [markHandled_of_not_made hq]
      exact .refl _
  | takeReaction | takeJob | queueImport => exact .refl _

theorem History.becomes (h : s.History track ledger es s') (p : PromiseId) :
    (s.promise p).Becomes (s'.promise p) := by
  induction h with
  | nil => exact .refl _
  | snoc _ htick ih => exact ih.trans (htick.becomes p)

/-! ## Capabilities that are used up -/

theorem isSpent_iff {c : Capability} : s.isSpent c ↔
    (s.promise c.promise).settlement? ≠ none ∨
      c.mustBeUnresolved = true ∧ (s.promise c.promise).phase.1 = true := by
  rw [isSpent]
  cases s.promise c.promise with
  | pending rs resolved => simp [PromiseState.settlement?, PromiseState.phase]
  | fulfilled v | rejected e handled => simp [PromiseState.settlement?]

theorem settle_of_isSpent {c : Capability} (h : s.isSpent c) (result : Except Value Value) :
    s.settle track c result = s := by
  cases result with
  | ok v => exact if_pos h
  | error e => exact if_pos h

theorem isSpent_settle {c : Capability} (hc : s.Made c.promise)
    (hstrict : c.mustBeUnresolved = true) (result : Except Value Value) :
    (s.settle track c result).isSpent c := by
  obtain ⟨hspent, hs⟩ | ⟨q, -, hs⟩ | ⟨x, -, hs⟩ := settle_attempts track hc result
  · rwa [hs]
  · rw [isSpent_iff, hs]
    refine .inr ⟨hstrict, ?_⟩
    exact congrArg (fun st => st.phase.1) ((promise_setPromise hc _ _).trans (if_pos rfl))
  · rw [isSpent_iff, hs.promise, if_pos rfl, Settlement.settlement?_state]
    exact .inl nofun

theorem isSpent_of_becomes {c : Capability}
    (h : (s.promise c.promise).Becomes (s'.promise c.promise)) (hspent : s.isSpent c) :
    s'.isSpent c := by
  rw [isSpent_iff] at hspent ⊢
  refine hspent.imp (fun hsettled => ?_) fun hresolved => ⟨hresolved.1, h.resolved hresolved.2⟩
  obtain ⟨x, hx⟩ := Option.ne_none_iff_exists'.1 hsettled
  rw [h.settlement hx]
  nofun

/-- A capability that was used once, and asks for an unresolved promise, does nothing any more. -/
theorem settle_of_used {c : Capability} (hstrict : c.mustBeUnresolved = true)
    (hc : s.Made c.promise) {result : Except Value Value}
    (h : (s.settle track c result).History track ledger es s') (result' : Except Value Value) :
    s'.settle track c result' = s' :=
  settle_of_isSpent (isSpent_of_becomes (h.becomes c.promise) (isSpent_settle hc hstrict result))
    result'

/-! ## Settlements in a history -/

end Machine

def Incident.settles? : Incident → Option PromiseId
  | .settled p _ => some p
  | .attached .. | .lost _ | .consumed _ | .ran .. => none

def settledIn (es : List Incident) : List PromiseId := es.filterMap Incident.settles?

@[simp] theorem settledIn_append (es es' : List Incident) :
    settledIn (es ++ es') = settledIn es ++ settledIn es' := List.filterMap_append

theorem mem_settledIn {es : List Incident} {p : PromiseId} :
    p ∈ settledIn es ↔ ∃ x, Incident.settled p x ∈ es := by
  rw [settledIn, List.mem_filterMap]
  constructor
  · rintro ⟨e, he, hp⟩
    cases e <;> cases hp
    exact ⟨_, he⟩
  · rintro ⟨x, hx⟩
    exact ⟨_, hx, rfl⟩

namespace Machine

variable {track : Tracker σ} {ledger : σ → α} {owned : σ → PromiseId → Prop}
variable {hosts : Set (Host σ κ)} {rank : Host σ κ → Nat} {h₀ : σ}
variable {s s' : Machine σ κ} {p q : PromiseId} {es es' : List Incident}

structure Records (s : Machine σ κ) (es : List Incident) (s' : Machine σ κ) : Prop where
  once : (settledIn es).Nodup
  pending : ∀ p x, .settled p x ∈ es → (s.promise p).settlement? = none
  settlement : ∀ p x, (s'.promise p).settlement? = some x ↔
    (s.promise p).settlement? = some x ∨ .settled p x ∈ es

theorem Records.of_eq (h : ∀ p, (s'.promise p).settlement? = (s.promise p).settlement?)
    (hes : ∀ p x, .settled p x ∉ es) : s.Records es s' where
  once := by
    have hnil : settledIn es = [] :=
      List.eq_nil_iff_forall_not_mem.2 fun p hp =>
        let ⟨x, hx⟩ := mem_settledIn.1 hp
        hes p x hx
    rw [hnil]
    exact .nil
  pending p x hx := absurd hx (hes p x)
  settlement p x := by simp [h, hes]

theorem Records.of_settled {x : Settlement} (hp : (s.promise p).settlement? = none)
    (hself : (s'.promise p).settlement? = some x) (hother : ∀ q, q ≠ p →
      (s'.promise q).settlement? = (s.promise q).settlement?) : s.Records [.settled p x] s' where
  once := List.nodup_singleton p
  pending q y hy := by
    cases List.mem_singleton.1 hy
    exact hp
  settlement q y := by
    by_cases e : q = p
    · rw [e, hself, hp]
      simp [eq_comm]
    · simp [hother q e, e]

theorem Records.append {s'' : Machine σ κ} (h : s.Records es s') (h' : s'.Records es' s'') :
    s.Records (es ++ es') s'' where
  once := by
    rw [settledIn_append]
    refine h.once.append h'.once fun p hp hp' => ?_
    obtain ⟨x, hx⟩ := mem_settledIn.1 hp
    obtain ⟨y, hy⟩ := mem_settledIn.1 hp'
    have hsettled := (h.settlement p x).2 (.inr hx)
    rw [h'.pending p y hy] at hsettled
    cases hsettled
  pending p x hx := by
    obtain hx | hx := List.mem_append.1 hx
    · exact h.pending p x hx
    · have hnone := h'.pending p x hx
      by_contra hne
      obtain ⟨y, hy⟩ := Option.ne_none_iff_exists'.1 hne
      rw [(h.settlement p y).2 (.inl hy)] at hnone
      cases hnone
  settlement p x := by rw [h'.settlement, h.settlement, List.mem_append, or_assoc]

theorem settling_eq_nil (h : (s'.promise p).settlement? = (s.promise p).settlement?) :
    s.settling s' p = [] := by
  rw [settling, h]
  split
  · simp_all
  · rfl

theorem settling_of_pending {x : Settlement} (hp : (s.promise p).settlement? = none)
    (hx : (s'.promise p).settlement? = some x) : s.settling s' p = [.settled p x] := by
  rw [settling, hp, hx]

theorem records_settle {c : Capability} (hc : s.Made c.promise) (result : Except Value Value) :
    s.Records (s.settling (s.settle track c result) c.promise) (s.settle track c result) := by
  obtain ⟨-, hs⟩ | ⟨q, hp, hs⟩ | ⟨x, hp, hs⟩ := settle_attempts track hc result
  · rw [hs, settling_eq_nil rfl]
    exact .of_eq (fun _ => rfl) nofun
  · have hsame : ∀ q, ((s.settle track c result).promise q).settlement? =
        (s.promise q).settlement? := fun q => by
      rw [hs]
      refine (congrArg PromiseState.settlement? (promise_setPromise hc _ q)).trans ?_
      split
      · rename_i e
        rw [e, hp]
        rfl
      · rfl
    rw [settling_eq_nil (hsame _)]
    exact .of_eq hsame nofun
  · have hnone : (s.promise c.promise).settlement? = none := by
      rw [hp]
      rfl
    have hself : ((s.settle track c result).promise c.promise).settlement? = some x := by
      rw [hs.promise, if_pos rfl, Settlement.settlement?_state]
    rw [settling_of_pending hnone hself]
    refine .of_settled hnone hself fun q hq => ?_
    rw [hs.promise, if_neg hq]

theorem records_newPromise (s : Machine σ κ) {st : PromiseState} (hst : st.settlement? = none) :
    s.Records [] (s.newPromise st).2 := by
  refine .of_eq (fun p => ?_) nofun
  rw [promise_newPromise]
  split
  · rename_i e
    rw [hst, e, promise_of_not_made (not_made_nextPromise s)]
    rfl
  · rfl

theorem Tick.records (h : s.Tick track ledger es s') : s.Records es s' := by
  cases h with
  | aside h => exact .of_eq (fun p => by rw [promise_of_promises h.promises]) nofun
  | newPromise => exact records_newPromise s rfl
  | newFulfilled v =>
    refine .of_settled (by rw [promise_of_not_made (not_made_nextPromise s)]; rfl) ?_ fun q hq => ?_
    · rw [Machine.newFulfilled, promise_newPromise, if_pos rfl]
      rfl
    · rw [Machine.newFulfilled, promise_newPromise, if_neg hq]
  | attach reaction hq =>
    refine .of_eq (fun p => ?_) (by simp)
    rw [promise_attach track s _ reaction hq]
    split
    · rename_i e
      rw [e, PromiseState.settlement?_attach]
    · rfl
  | lose reaction hq =>
    rw [attach_of_not_made reaction hq]
    exact .of_eq (fun _ => rfl) (by simp)
  | settle result hc => exact records_settle hc result
  | markHandled q =>
    refine .of_eq (fun p => ?_) fun p x hx => ?_
    · by_cases hq : s.Made q
      · rw [promise_markHandled hq]
        split
        · rename_i e
          rw [e, PromiseState.settlement?_handle]
        · rfl
      · rw [markHandled_of_not_made hq]
    · rw [consuming] at hx
      split at hx <;> simp at hx
  | takeReaction hjobs => exact .of_eq (fun _ => rfl) (by simp)
  | takeJob hjobs hjob => exact .of_eq (fun _ => rfl) nofun
  | queueImport => exact .of_eq (fun _ => rfl) nofun

theorem History.records (h : s.History track ledger es s') : s.Records es s' := by
  induction h with
  | nil => exact .of_eq (fun _ => rfl) nofun
  | snoc _ htick ih => exact ih.append htick.records

/-! ## Steps that rely on a pending promise -/

/-- A step that has no result unless the promise is pending. -/
def ifPending (s : Machine σ κ) (p : PromiseId) (s' : Machine σ κ) : Option (Machine σ κ) :=
  if (s.promise p).isPending then some s' else none

variable (track)

/-- Resolves a promise, where marking it as resolved, fulfilling it and rejecting it have no result
unless it is pending. -/
def resolve? (s : Machine σ κ) (c : Capability) (value : Value) : Option (Machine σ κ) :=
  if s.isSpent c then some s
  else do
    let s ← s.ifPending c.promise (s.markResolved c.promise)
    match value with
    | .promise followed =>
      if followed = c.promise then
        let (e, s) := s.newError .typeError "Tried to resolve a promise with itself."
        s.ifPending c.promise (s.rejectPending track c.promise e)
      else some (s.enqueue (.adopt c.promise followed))
    | v => s.ifPending c.promise (s.fulfil c.promise v)

def reject? (s : Machine σ κ) (c : Capability) (reason : Value) : Option (Machine σ κ) :=
  if s.isSpent c then some s else s.ifPending c.promise (s.rejectPending track c.promise reason)

def settle? (s : Machine σ κ) (c : Capability) : Except Value Value → Option (Machine σ κ)
  | .ok v => s.resolve? track c v
  | .error e => s.reject? track c e

variable {track}

theorem isPending_iff {st : PromiseState} : st.isPending ↔ st.settlement? = none := by
  cases st <;> simp [PromiseState.isPending, PromiseState.settlement?]

theorem ifPending_of_pending (h : (s.promise p).settlement? = none) :
    s.ifPending p s' = some s' := if_pos (isPending_iff.2 h)

/-- Every step of settling finds its promise pending. -/
theorem settle?_eq (s : Machine σ κ) (c : Capability) (result : Except Value Value) :
    s.settle? track c result = some (s.settle track c result) := by
  by_cases hspent : s.isSpent c
  · rw [settle_of_isSpent hspent]
    cases result with
    | ok v => exact if_pos hspent
    | error e => exact if_pos hspent
  have hp := settlement?_of_not_isSpent hspent
  have hmarked : ((s.markResolved c.promise).promise c.promise).settlement? = none :=
    ((markResolved_step hp).2.1 _).trans hp
  cases result with
  | error e =>
    rw [settle?, reject?, if_neg hspent, ifPending_of_pending hp, settle, reject, if_neg hspent]
  | ok v =>
    rw [settle?, resolve?, if_neg hspent, ifPending_of_pending hp, settle, resolve, if_neg hspent]
    simp only [Option.bind_eq_bind, Option.bind_some]
    cases v with
    | promise followed =>
      dsimp only
      split
      · exact ifPending_of_pending hmarked
      · rfl
    | _ => exact ifPending_of_pending hmarked

/-- Promises at a machine with this history: each was settled at most once, with the result that it
has. From here on a settled promise keeps its result, and a capability that was used once does
nothing. No step of settling finds its promise settled already. -/
structure SettlesOnce (track : Tracker σ) (ledger : σ → α) (es : List Incident)
    (s : Machine σ κ) : Prop where
  once : (settledIn es).Nodup
  recorded : ∀ p x, (s.promise p).settlement? = some x ↔ .settled p x ∈ es
  becomes : ∀ es' s', s.History track ledger es' s' →
    ∀ p, (s.promise p).Becomes (s'.promise p)
  used : ∀ (c : Capability) result es' s', c.mustBeUnresolved = true → s.Made c.promise →
    (s.settle track c result).History track ledger es' s' →
      ∀ result', s'.settle track c result' = s'
  pending : ∀ c result, s.settle? track c result = some (s.settle track c result)

theorem History.settlesOnce (h : (initial h₀).History track ledger es s) :
    s.SettlesOnce track ledger es where
  once := h.records.once
  recorded p x := by
    have hnew : ((initial h₀ : Machine σ κ).promise p).settlement? = none :=
      congrArg PromiseState.settlement? (promise_of_not_made (Nat.not_lt_zero _))
    rw [h.records.settlement, hnew]
    simp
  becomes _ _ h' p := h'.becomes p
  used _ _ _ _ hstrict hc h' result' := settle_of_used hstrict hc h' result'
  pending c result := settle?_eq s c result

/-- Promises are settled at most once and keep their results. Whatever operations do is a history,
and all this holds at each machine of a history. -/
theorem promises_settle_once (h : Operates hosts rank track ledger owned) :
    (∀ s s', s.Arises hosts track ledger owned h₀ → s.Uses hosts track ledger owned s' →
      ∃ es es', (initial h₀).History track ledger es s ∧ s.History track ledger es' s') ∧
    ∀ es s, (initial h₀ : Machine σ κ).History track ledger es s →
      s.SettlesOnce track ledger es :=
  ⟨fun _ _ hs hs' => h.history hs hs', fun _ _ he => he.settlesOnce⟩

end Machine

open Recorder in
/-- A promise was rejected, and a callback has run since then: the promise is as it was, except that
it was handled, and the capability of a new promise is used up after its first use. -/
theorem promises_settle_once_rejected :
    Operates hosts (fun _ => 0) host.track id owned ∧
    rejected.Arises hosts host.track id owned [] ∧
    rejected.Uses hosts host.track id owned passedOn ∧
    rejected.promise ⟨0⟩ = .rejected .undefined false ∧
    (∃ handled, passedOn.promise ⟨0⟩ = .rejected .undefined handled) ∧
    ∀ result, passedOn.settle host.track ⟨⟨0⟩, true⟩ result = passedOn := by
  have he' := history_awaited.append history_passedOn
  have hs := (Machine.promises_settle_once operates).2 _ _ history_rejected
  obtain ⟨handled, hp, -⟩ := hs.becomes _ _ he' ⟨0⟩
  -- The promise was rejected before: using its capability changes nothing.
  have hspent : rejected.settle host.track ⟨⟨0⟩, true⟩ (.error .undefined) = rejected := rfl
  exact ⟨operates, arises_rejected, uses_passedOn, rfl, ⟨handled, hp⟩,
    hs.used ⟨⟨0⟩, true⟩ (.error .undefined) _ _ rfl Nat.zero_lt_one (hspent ▸ he')⟩

end ModuleGraph

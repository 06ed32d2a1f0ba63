import ModuleGraph.Proofs.Journal
import ModuleGraph.Promise.Join

/-! # Promises and their reactions

A promise holds its reactions until it is settled; then each of them is queued. A reaction that is
attached later is queued at once. What an operation on promises does is stated here by what it
changes, once for attaching and once for settling. -/

namespace ModuleGraph

namespace PromiseState

/-- Whether a promise was resolved, and how it was settled. -/
def phase : PromiseState → Bool × Option Settlement
  | .pending _ resolved => (resolved, none)
  | .fulfilled v => (true, some (.fulfilled v))
  | .rejected e _ => (true, some (.rejected e))

def reactions : PromiseState → List ReactionId
  | .pending rs _ => rs
  | .fulfilled _ | .rejected .. => []

def IsFresh : PromiseState → Prop
  | .pending reactions resolved => reactions = [] ∧ resolved = false
  | .fulfilled _ => True
  | .rejected .. => False

theorem IsFresh.reactions {st : PromiseState} (h : st.IsFresh) : st.reactions = [] := by
  cases st with
  | pending rs b => exact h.1
  | fulfilled v => rfl
  | rejected e b => exact h.elim

theorem phase_snd (st : PromiseState) : st.phase.2 = st.settlement? := by
  cases st <;> rfl

theorem reactions_of_settlement {st : PromiseState} {x : Settlement}
    (h : st.settlement? = some x) : st.reactions = [] := by
  cases st
  · cases h
  · rfl
  · rfl

end PromiseState

namespace Machine

variable {σ κ : Type} {s s' s'' : Machine σ κ} {p q : PromiseId} {r : ReactionId}
variable {journal : σ → Journal} {track : Tracker σ}

def reaction? (s : Machine σ κ) (r : ReactionId) : Option (Reaction κ) :=
  (s.reactions[r.index]?).bind id

def handler? (s : Machine σ κ) (r : ReactionId) : Option (Handler κ) :=
  (s.reaction? r).map (·.handler)

/-- The promise is pending, and the reaction runs when it is settled. -/
def Holds (s : Machine σ κ) (p : PromiseId) (r : ReactionId) : Prop := r ∈ (s.promise p).reactions

/-- Nothing has been decided about the promise: it is pending, and it follows no other one. -/
def Undecided (s : Machine σ κ) (p : PromiseId) : Prop := (s.promise p).phase = (false, none)

def nextPromise (s : Machine σ κ) : PromiseId := ⟨s.promises.size⟩

def nextReaction (s : Machine σ κ) : ReactionId := ⟨s.reactions.size⟩

def Made (s : Machine σ κ) (p : PromiseId) : Prop := p.index < s.promises.size

theorem promise_of_not_made (h : ¬s.Made p) : s.promise p = default := by
  simp only [Made, Nat.not_lt] at h
  simp [promise, Array.getD_eq_getD_getElem?, Array.getElem?_eq_none h]

theorem reactions_of_not_made (h : ¬s.Made p) : (s.promise p).reactions = [] := by
  rw [promise_of_not_made h]
  rfl

theorem made_of_holds (h : s.Holds p r) : s.Made p := by
  by_contra hm
  rw [Holds, reactions_of_not_made hm] at h
  cases h

theorem made_of_resolved (h : ¬s.Undecided p) : s.Made p := by
  by_contra hm
  rw [Undecided, promise_of_not_made hm] at h
  exact h rfl

theorem promise_setPromise (h : s.Made p) (st : PromiseState) (q : PromiseId) :
    (s.setPromise p st).promise q = if q = p then st else s.promise q := by
  by_cases e : q = p
  · rw [e, if_pos rfl, promise_setPromise_self s st h]
  · rw [if_neg e, promise_setPromise_of_ne s st (Ne.symm e)]

theorem setPromise_of_not_made (h : ¬s.Made p) (st : PromiseState) : s.setPromise p st = s := by
  simp only [Made, Nat.not_lt] at h
  rw [setPromise, Array.setIfInBounds_eq_of_size_le h]

def KeepsErrors (s s' : Machine σ κ) : Prop :=
  ∀ (i : Nat) x, s.errors[i]? = some x → s'.errors[i]? = some x

theorem KeepsErrors.refl (s : Machine σ κ) : s.KeepsErrors s := fun _ _ hx => hx

theorem KeepsErrors.trans (h : s.KeepsErrors s') (h' : s'.KeepsErrors s'') : s.KeepsErrors s'' :=
  fun i x hx => h' i x (h i x hx)

theorem keepsErrors_newError (s : Machine σ κ) (kind : ErrorKind) (message : String) :
    s.KeepsErrors (s.newError kind message).2 := fun i x hx => by
  obtain ⟨hi, -⟩ := Array.getElem?_eq_some_iff.1 hx
  exact (Array.getElem?_push_lt hi).trans ((Array.getElem?_eq_getElem hi).symm.trans hx)

/-- What evaluation sees of the machine is the same. -/
structure Beside (journal : σ → Journal) (s s' : Machine σ κ) : Prop where
  modules : s'.modules = s.modules
  nextTurn : s'.nextTurn = s.nextTurn
  journal : journal s'.host = journal s.host
  errors : s.KeepsErrors s'

namespace Beside

theorem refl (s : Machine σ κ) : s.Beside journal s := ⟨rfl, rfl, rfl, .refl s⟩

theorem trans (h : s.Beside journal s') (h' : s'.Beside journal s'') : s.Beside journal s'' :=
  ⟨h'.modules.trans h.modules, h'.nextTurn.trans h.nextTurn, h'.journal.trans h.journal,
    h.errors.trans h'.errors⟩

end Beside

/-- Promises and reactions stand as they did; what the host was told about rejections may differ,
and so may objects and errors. -/
structure Unmoved (journal : σ → Journal) (s s' : Machine σ κ) : Prop extends
    s.Beside journal s' where
  size : s'.promises.size = s.promises.size
  phase : ∀ q, (s'.promise q).phase = (s.promise q).phase
  held : ∀ q, (s'.promise q).reactions = (s.promise q).reactions
  reactions : s'.reactions = s.reactions
  joins : s'.joins = s.joins
  imports : s'.imports = s.imports
  jobs : s'.jobs = s.jobs

namespace Unmoved

theorem refl (s : Machine σ κ) : s.Unmoved journal s :=
  ⟨.refl s, rfl, fun _ => rfl, fun _ => rfl, rfl, rfl, rfl, rfl⟩

theorem trans (h : s.Unmoved journal s') (h' : s'.Unmoved journal s'') : s.Unmoved journal s'' where
  toBeside := h.toBeside.trans h'.toBeside
  size := h'.size.trans h.size
  phase q := (h'.phase q).trans (h.phase q)
  held q := (h'.held q).trans (h.held q)
  reactions := h'.reactions.trans h.reactions
  joins := h'.joins.trans h.joins
  imports := h'.imports.trans h.imports
  jobs := h'.jobs.trans h.jobs

theorem newError (s : Machine σ κ) (kind : ErrorKind) (message : String) :
    s.Unmoved journal (s.newError kind message).2 :=
  ⟨⟨rfl, rfl, rfl, keepsErrors_newError s kind message⟩, rfl, fun _ => rfl,
    fun _ => rfl, rfl, rfl, rfl, rfl⟩

theorem noteRejection (ht : ∀ p e h, journal (track p e h) = journal h) (s : Machine σ κ)
    (p : PromiseId) (event : RejectionEvent) :
    s.Unmoved journal (s.noteRejection track p event) :=
  ⟨⟨rfl, rfl, ht _ _ _, .refl s⟩, rfl, fun _ => rfl, fun _ => rfl, rfl, rfl, rfl, rfl⟩

/-- Another state of a promise with the same phase and the same reactions. -/
theorem setPromise {st : PromiseState} (hphase : (s.promise p).phase = st.phase)
    (hheld : (s.promise p).reactions = st.reactions) : s.Unmoved journal (s.setPromise p st) := by
  by_cases hp : s.Made p
  · refine ⟨⟨rfl, rfl, rfl, .refl s⟩, by simp, fun q => ?_, fun q => ?_, rfl, rfl, rfl, rfl⟩
    · rw [promise_setPromise hp]
      split
      · rename_i hq
        rw [hq, hphase]
      · rfl
    · rw [promise_setPromise hp]
      split
      · rename_i hq
        rw [hq, hheld]
      · rfl
  · rw [setPromise_of_not_made hp]
    exact .refl s

theorem markHandled (ht : ∀ p e h, journal (track p e h) = journal h) (s : Machine σ κ)
    (p : PromiseId) : s.Unmoved journal (s.markHandled track p) := by
  rw [Machine.markHandled]
  split
  · rename_i hp
    exact (setPromise (by rw [hp]; rfl) (by rw [hp]; rfl)).trans (noteRejection ht _ _ _)
  all_goals exact .refl s

end Unmoved

/-! ## Attaching -/

structure Attached (journal : σ → Journal) (s s' : Machine σ κ) (p : PromiseId)
    (reaction : Reaction κ) : Prop extends s.Beside journal s' where
  size : s'.promises.size = s.promises.size
  phase : ∀ q, (s'.promise q).phase = (s.promise q).phase
  count : s'.reactions.size = s.reactions.size + 1
  reaction : ∀ r, s'.reaction? r = if r = s.nextReaction then some reaction else s.reaction? r
  joins : s'.joins = s.joins
  imports : s'.imports = s.imports
  /-- It is held, or queued at once. -/
  placed : (s.promise p).settlement? = none ∧ s'.jobs = s.jobs ∧ (∀ q r, s'.Holds q r ↔
        s.Holds q r ∨ s.Made p ∧ q = p ∧ r = s.nextReaction) ∨
      ∃ x, (s.promise p).settlement? = some x ∧ s'.jobs = s.jobs ++ [.react s.nextReaction x] ∧
        ∀ q r, s'.Holds q r ↔ s.Holds q r

theorem reaction?_push (s : Machine σ κ) (reaction : Reaction κ) (r : ReactionId) :
    ((s.reactions.push (some reaction))[r.index]?).bind id =
      if r = s.nextReaction then some reaction else s.reaction? r := by
  obtain ⟨i⟩ := r
  by_cases e : i = s.reactions.size
  · subst e
    simp [nextReaction]
  · rw [if_neg fun h => e (by cases h; rfl), Array.getElem?_push, if_neg e, reaction?]

theorem attach_eq (s : Machine σ κ) (p : PromiseId) (reaction : Reaction κ) :
    s.attach track p reaction = match s.promise p with
      | .pending rs b =>
        (s.newReaction reaction).2.setPromise p (.pending (rs ++ [s.nextReaction]) b)
      | .fulfilled v =>
        (s.newReaction reaction).2.enqueue (.react s.nextReaction (.fulfilled v))
      | .rejected e _ =>
        ((s.newReaction reaction).2.markHandled track p).enqueue
          (.react s.nextReaction (.rejected e)) := rfl

/-- A pending promise keeps its phase and holds one more reaction. -/
theorem placed_setPromise {p : PromiseId} {rs : List ReactionId} {b : Bool}
    (hp : s.promise p = .pending rs b) (reaction : Reaction κ) (q : PromiseId) :
    (((s.newReaction reaction).2.setPromise p
        (.pending (rs ++ [s.nextReaction]) b)).promise q).phase = (s.promise q).phase ∧
      ∀ r, ((s.newReaction reaction).2.setPromise p
          (.pending (rs ++ [s.nextReaction]) b)).Holds q r ↔
        s.Holds q r ∨ s.Made p ∧ q = p ∧ r = s.nextReaction := by
  by_cases hmade : s.Made p
  · have hset := promise_setPromise (s := (s.newReaction reaction).2) hmade
      (.pending (rs ++ [s.nextReaction]) b) q
    by_cases e : q = p
    · subst e
      refine ⟨by rw [hset, if_pos rfl, hp]; rfl, fun r => ?_⟩
      rw [Holds, hset, if_pos rfl, Holds, hp]
      simp [PromiseState.reactions, hmade]
    · refine ⟨by rw [hset, if_neg e]; rfl, fun r => ?_⟩
      rw [Holds, hset, if_neg e]
      simp only [e, false_and, and_false, or_false]
      rfl
  · rw [setPromise_of_not_made (s := (s.newReaction reaction).2) hmade]
    simp only [hmade, false_and, or_false]
    exact ⟨rfl, fun _ => Iff.rfl⟩

theorem attached (ht : ∀ p e h, journal (track p e h) = journal h) (s : Machine σ κ)
    (p : PromiseId) (reaction : Reaction κ) :
    s.Attached journal (s.attach track p reaction) p reaction := by
  rw [attach_eq]
  cases hp : s.promise p with
  | pending rs b =>
    have hplaced := placed_setPromise hp reaction
    exact
      { modules := rfl
        nextTurn := rfl
        journal := rfl
        errors := .refl s
        size := size_setPromise _ _ _
        phase := fun q => (hplaced q).1
        count := Array.size_push _
        reaction := reaction?_push s reaction
        joins := rfl
        imports := rfl
        placed := .inl ⟨by rw [hp]; rfl, rfl, fun q => (hplaced q).2⟩ }
  | fulfilled v =>
    exact
      { modules := rfl
        nextTurn := rfl
        journal := rfl
        errors := .refl s
        size := rfl
        phase := fun _ => rfl
        count := Array.size_push _
        reaction := reaction?_push s reaction
        joins := rfl
        imports := rfl
        placed := .inr ⟨_, by rw [hp]; rfl, rfl, fun _ _ => Iff.rfl⟩ }
  | rejected e h =>
    have hu : (s.newReaction reaction).2.Unmoved journal
        ((s.newReaction reaction).2.markHandled track p) := .markHandled ht _ _
    exact
      { modules := hu.modules
        nextTurn := hu.nextTurn
        journal := hu.journal
        errors := hu.errors
        size := hu.size
        phase := hu.phase
        count := (congrArg Array.size hu.reactions).trans (Array.size_push _)
        reaction := fun r => by
          rw [← reaction?_push s reaction]
          exact congrArg (fun a => (a[r.index]?).bind id) hu.reactions
        joins := hu.joins
        imports := hu.imports
        placed := .inr ⟨.rejected e, by rw [hp]; rfl,
          congrArg (· ++ [Job.react s.nextReaction (.rejected e)]) hu.jobs,
          fun q r => iff_of_eq (congrArg (r ∈ ·) (hu.held q))⟩ }

/-! ## Settling -/

/-- A promise that is no longer pending: its reactions are queued. -/
structure Ended (journal : σ → Journal) (s s' : Machine σ κ) (p : PromiseId) (x : Settlement) :
    Prop extends s.Beside journal s' where
  size : s'.promises.size = s.promises.size
  pending : (s.promise p).settlement? = none
  settled : s.Made p → (s'.promise p).phase = (true, some x)
  other : ∀ q, q ≠ p → (s'.promise q).phase = (s.promise q).phase
  held : ∀ q r, s'.Holds q r ↔ s.Holds q r ∧ q ≠ p
  reactions : s'.reactions = s.reactions
  joins : s'.joins = s.joins
  imports : s'.imports = s.imports
  jobs : s'.jobs = s.jobs ++ (s.promise p).reactions.map fun r => .react r x

structure Follows (journal : σ → Journal) (s s' : Machine σ κ) (p q : PromiseId) :
    Prop extends s.Beside journal s' where
  size : s'.promises.size = s.promises.size
  pending : (s.promise p).settlement? = none
  other : ∀ q, q ≠ p → (s'.promise q).phase = (s.promise q).phase
  settled : ∀ q, (s'.promise q).settlement? = (s.promise q).settlement?
  held : ∀ q, (s'.promise q).reactions = (s.promise q).reactions
  reactions : s'.reactions = s.reactions
  joins : s'.joins = s.joins
  imports : s'.imports = s.imports
  jobs : s'.jobs = s.jobs ++ [.adopt p q]

def Settles (journal : σ → Journal) (s s' : Machine σ κ) (p : PromiseId) : Prop :=
  s.Unmoved journal s' ∨ (∃ x, s.Ended journal s' p x) ∨ ∃ q, s.Follows journal s' p q

theorem Settles.reactions (h : s.Settles journal s' p) : s'.reactions = s.reactions := by
  obtain h | ⟨x, h⟩ | ⟨q, h⟩ := h
  · exact h.reactions
  · exact h.reactions
  · exact h.reactions

theorem Ended.unmoved {x : Settlement} (h : s.Ended journal s' p x)
    (hu : s'.Unmoved journal s'') : s.Ended journal s'' p x where
  toBeside := h.toBeside.trans hu.toBeside
  size := hu.size.trans h.size
  pending := h.pending
  settled hp := (hu.phase p).trans (h.settled hp)
  other q hq := (hu.phase q).trans (h.other q hq)
  held q r := (iff_of_eq (congrArg (r ∈ ·) (hu.held q))).trans (h.held q r)
  reactions := hu.reactions.trans h.reactions
  joins := hu.joins.trans h.joins
  imports := hu.imports.trans h.imports
  jobs := hu.jobs.trans h.jobs

/-- A promise that was pending is settled, and its reactions are queued. -/
theorem ended_setPromise (hp : (s.promise p).settlement? = none) {st : PromiseState}
    {x : Settlement} (hst : st.phase = (true, some x)) :
    s.Ended journal ((s.setPromise p st).enqueueReactions (s.promise p).reactions x) p x := by
  have hnone : st.reactions = [] := by
    refine PromiseState.reactions_of_settlement (x := x) ?_
    rw [← st.phase_snd, hst]
  have hstate : s.Made p → ∀ q, (s.setPromise p st).promise q = if q = p then st else s.promise q :=
    fun hm => promise_setPromise hm st
  refine
    { modules := rfl
      nextTurn := rfl
      journal := rfl
      errors := .refl s
      size := size_setPromise _ _ _
      pending := hp
      settled := fun hm => ?_
      other := fun q hq => ?_
      held := fun q r => ?_
      reactions := rfl
      joins := rfl
      imports := rfl
      jobs := rfl }
  · change ((s.setPromise p st).promise p).phase = _
    rw [hstate hm, if_pos rfl, hst]
  · change ((s.setPromise p st).promise q).phase = _
    rw [setPromise, promise, promise, ← promise, ← promise, ← setPromise,
      promise_setPromise_of_ne s st (Ne.symm hq)]
  · change r ∈ ((s.setPromise p st).promise q).reactions ↔ _
    by_cases hm : s.Made p
    · rw [hstate hm]
      by_cases e : q = p
      · simp [e, hnone]
      · simp [e, Holds]
    · rw [setPromise_of_not_made hm]
      refine ⟨fun hr => ⟨hr, ?_⟩, fun hr => hr.1⟩
      rintro rfl
      exact hm (made_of_holds hr)

theorem fulfil_ended (hp : (s.promise p).settlement? = none) (v : Value) :
    s.Ended journal (s.fulfil p v) p (.fulfilled v) := by
  have h : s.Ended journal _ p (.fulfilled v) :=
    ended_setPromise hp (show (PromiseState.fulfilled v).phase = _ from rfl)
  cases hs : s.promise p with
  | pending rs b =>
    rw [hs] at h
    rw [fulfil, hs]
    exact h
  | fulfilled w =>
    rw [hs] at hp
    cases hp
  | rejected e b =>
    rw [hs] at hp
    cases hp

theorem rejectPending_ended (ht : ∀ p e h, journal (track p e h) = journal h)
    (hp : (s.promise p).settlement? = none) (e : Value) :
    s.Ended journal (s.rejectPending track p e) p (.rejected e) := by
  cases hs : s.promise p with
  | pending rs b =>
    have h : s.Ended journal _ p (.rejected e) :=
      ended_setPromise hp (show (PromiseState.rejected e (!rs.isEmpty)).phase = _ from rfl)
    rw [hs] at h
    rw [rejectPending, hs]
    dsimp only
    split
    · exact h.unmoved ⟨⟨rfl, rfl, ht _ _ _, .refl _⟩, rfl, fun _ => rfl,
        fun _ => rfl, rfl, rfl, rfl, rfl⟩
    · exact h
  | fulfilled w =>
    rw [hs] at hp
    cases hp
  | rejected e b =>
    rw [hs] at hp
    cases hp

/-- Marking a promise as resolved, as a step before it is settled. -/
theorem markResolved_step (hp : (s.promise p).settlement? = none) :
    (∀ q, q ≠ p → ((s.markResolved p).promise q).phase = (s.promise q).phase) ∧
      (∀ q, ((s.markResolved p).promise q).settlement? = (s.promise q).settlement?) ∧
      (∀ q, ((s.markResolved p).promise q).reactions = (s.promise q).reactions) ∧
      (s.markResolved p).promises.size = s.promises.size ∧
      s.markResolved p = { s with promises := (s.markResolved p).promises } := by
  cases hs : s.promise p with
  | pending rs b =>
    have he : s.markResolved p = s.setPromise p (.pending rs true) := by rw [markResolved, hs]
    rw [he]
    by_cases hm : s.Made p
    · refine ⟨fun q hq => ?_, fun q => ?_, fun q => ?_, size_setPromise _ _ _, rfl⟩ <;>
        rw [promise_setPromise hm]
      · rw [if_neg hq]
      · split
        · rename_i e
          rw [e, hs]
          rfl
        · rfl
      · split
        · rename_i e
          rw [e, hs]
          rfl
        · rfl
    · rw [setPromise_of_not_made hm]
      exact ⟨fun _ _ => rfl, fun _ => rfl, fun _ => rfl, rfl, rfl⟩
  | fulfilled w =>
    rw [hs] at hp
    cases hp
  | rejected e b =>
    rw [hs] at hp
    cases hp

theorem Ended.marked {x : Settlement} (h : (s.markResolved p).Ended journal s' p x)
    (hp : (s.promise p).settlement? = none) : s.Ended journal s' p x := by
  obtain ⟨hphase, -, hheld, hsize, hs⟩ := markResolved_step hp
  have hmade : s.Made p → (s.markResolved p).Made p := fun hm => by rwa [Made, hsize]
  exact
    { modules := h.modules.trans (by rw [hs])
      nextTurn := h.nextTurn.trans (by rw [hs])
      journal := h.journal.trans (by rw [hs])
      errors := by
        have hk : s.KeepsErrors (s.markResolved p) := by rw [hs]; exact .refl s
        exact hk.trans h.errors
      size := h.size.trans hsize
      pending := hp
      settled := fun hm => h.settled (hmade hm)
      other := fun q hq => (h.other q hq).trans (hphase q hq)
      held := fun q r => by rw [h.held, Holds, hheld, Holds]
      reactions := h.reactions.trans (by rw [hs])
      joins := h.joins.trans (by rw [hs])
      imports := h.imports.trans (by rw [hs])
      jobs := by rw [h.jobs, hheld, hs] }

theorem settlement?_of_not_isSpent {c : Capability} (h : ¬s.isSpent c) :
    (s.promise c.promise).settlement? = none := by
  rw [isSpent] at h
  split at h
  · rename_i hs
    rw [hs]
    rfl
  all_goals exact (h rfl).elim

theorem not_isSpent_of_undecided {c : Capability} (h : s.Undecided c.promise) : ¬s.isSpent c := by
  rw [isSpent]
  cases hs : s.promise c.promise with
  | pending rs b =>
    rw [Undecided, hs] at h
    cases h
    simp
  | fulfilled v =>
    rw [Undecided, hs] at h
    cases h
  | rejected e b =>
    rw [Undecided, hs] at h
    cases h

/-- A capability that asks for an unresolved promise has nothing to settle once that is decided. -/
theorem isSpent_of_decided {c : Capability} (hc : c.mustBeUnresolved = true)
    (h : ¬s.Undecided c.promise) : s.isSpent c := by
  rw [isSpent, hc]
  cases hs : s.promise c.promise with
  | pending rs b =>
    cases b with
    | false => exact (h (by rw [Undecided, hs]; rfl)).elim
    | true => rfl
  | fulfilled v => rfl
  | rejected e b => rfl

theorem resolve_ended (s : Machine σ κ) (c : Capability) {v : Value} (hv : ∀ q, v ≠ .promise q)
    (h : ¬s.isSpent c) :
    s.Ended journal (s.resolve track c v) c.promise (.fulfilled v) := by
  have hp := settlement?_of_not_isSpent h
  have hp' : ((s.markResolved c.promise).promise c.promise).settlement? = none :=
    ((markResolved_step hp).2.1 _).trans hp
  have hend : s.Ended journal _ c.promise (.fulfilled v) := (fulfil_ended hp' v).marked hp
  rw [resolve, if_neg h]
  cases v <;> first | exact hend | exact (hv _ rfl).elim

section Settle

variable (s) (ht : ∀ p e h, journal (track p e h) = journal h) (c : Capability)
include ht

theorem reject_ended {e : Value} (h : ¬s.isSpent c) :
    s.Ended journal (s.reject track c e) c.promise (.rejected e) := by
  rw [reject, if_neg h]
  exact rejectPending_ended ht (settlement?_of_not_isSpent h) e

theorem resolve_settles (v : Value) : s.Settles journal (s.resolve track c v) c.promise := by
  by_cases h : s.isSpent c
  · rw [resolve, if_pos h]
    exact .inl (.refl s)
  by_cases hv : ∀ q, v ≠ .promise q
  · exact .inr (.inl ⟨_, resolve_ended s c hv h⟩)
  obtain ⟨q, hq⟩ := not_forall.1 hv
  obtain rfl := not_not.1 hq
  have hp := settlement?_of_not_isSpent h
  obtain ⟨hphase, hsettled, hheld, hsize, hs⟩ := markResolved_step hp
  rw [resolve, if_neg h]
  dsimp only
  split
  · have hend := rejectPending_ended ht
      (s := ((s.markResolved c.promise).newError .typeError
        "Tried to resolve a promise with itself.").2) ((hsettled _).trans hp)
      ((s.markResolved c.promise).newError .typeError "Tried to resolve a promise with itself.").1
    have hend' : (s.markResolved c.promise).Ended journal _ c.promise _ :=
      ⟨⟨hend.modules, hend.nextTurn, hend.journal, (keepsErrors_newError _ _ _).trans hend.errors⟩,
        hend.size, hend.pending, hend.settled, hend.other, hend.held, hend.reactions, hend.joins,
        hend.imports, hend.jobs⟩
    exact .inr (.inl ⟨_, hend'.marked hp⟩)
  · refine .inr (.inr ⟨q, ⟨?_, ?_, ?_, fun _ _ hx => ?_⟩, hsize, hp, hphase, hsettled, hheld, ?_,
      ?_, ?_, ?_⟩)
    case refine_4 => rw [hs]; exact hx
    all_goals rw [hs]; rfl

theorem reject_settles (e : Value) : s.Settles journal (s.reject track c e) c.promise := by
  by_cases h : s.isSpent c
  · rw [reject, if_pos h]
    exact .inl (.refl s)
  · exact .inr (.inl ⟨_, reject_ended s ht c h⟩)

theorem settle_settles (result : Except Value Value) :
    s.Settles journal (s.settle track c result) c.promise := by
  cases result with
  | ok v => exact resolve_settles s ht c v
  | error e => exact reject_settles s ht c e

end Settle

/-! ## Joint waits -/

/-- A joint wait that goes on settles the promise that it was made for. -/
theorem capability_setJoin (s : Machine σ κ) (j : JoinId) {new : Join}
    (hnew : new.capability = (s.join j).capability) (i : JoinId) :
    (({ s with joins := s.joins.setIfInBounds j.index new } : Machine σ κ).join i).capability =
      (s.join i).capability := by
  simp only [join, Array.getD_eq_getD_getElem?, Array.getElem?_setIfInBounds]
  split
  · rename_i e
    split
    · rw [Option.getD_some, hnew, join, ← e, Array.getD_eq_getD_getElem?]
    · rename_i hlt
      rw [← e, Array.getElem?_eq_none (Nat.not_lt.1 hlt)]
  · rfl

end Machine

end ModuleGraph

import ModuleGraph.Proofs.Histories.Dealings

/-! # Promises that follow others

A promise that is resolved with another one follows it: first a job is queued, then a reaction waits
at the other promise, and at last its settlement is passed on. All this time the promise is
unsettled, and nothing else can settle it through a capability that asks for an unresolved one. -/

namespace ModuleGraph

variable {σ κ α : Type}

namespace Machine

variable {track : Tracker σ} {ledger : σ → α} {owned : σ → PromiseId → Prop}
variable {hosts : Set (Host σ κ)} {rank : Host σ κ → Nat} {h₀ : σ}
variable {s s' u : Machine σ κ} {p q : PromiseId} {r : ReactionId}
variable {os : List Occurrence} {es : List Incident}

/-! ## No promise is fulfilled with a promise -/

/-- The value of a fulfilled promise is no promise. -/
def Flat (s : Machine σ κ) : Prop :=
  ∀ p q, (s.promise p).settlement? ≠ some (.fulfilled (.promise q))

theorem Flat.of_eq (hs : s.Flat)
    (h : ∀ p, (s'.promise p).settlement? = (s.promise p).settlement?) : s'.Flat :=
  fun p q hp => hs p q ((h p).symm.trans hp)

theorem Flat.concludes (hs : s.Flat) {rs : List ReactionId} {x : Settlement}
    (h : s.Concludes track s' p rs x) (hx : ∀ q, x ≠ .fulfilled (.promise q)) : s'.Flat := by
  intro p' q hp
  rw [h.promise] at hp
  split at hp
  · rw [Settlement.settlement?_state] at hp
    exact hx q (Option.some.inj hp)
  · exact hs p' q hp

theorem Flat.settle (hs : s.Flat) {c : Capability} (hc : s.Made c.promise)
    (result : Except Value Value) : (s.settle track c result).Flat := by
  by_cases hspent : s.isSpent c
  · rwa [settle_of_isSpent hspent]
  obtain ⟨rs, b, hp⟩ := pending_of_not_isSpent hspent
  cases result with
  | error e => exact hs.concludes (reject_concludes track hc hp hspent e) nofun
  | ok v =>
    by_cases hv : ∃ q, v = .promise q
    · obtain ⟨q, rfl⟩ := hv
      by_cases hq : q = c.promise
      · subst hq
        obtain ⟨e, hself⟩ := resolve_self track hc hp hspent
        exact hs.concludes hself nofun
      · refine hs.of_eq fun p => ?_
        rw [Machine.settle, resolve_follows track hc hp hspent hq]
        refine (congrArg PromiseState.settlement? (promise_setPromise hc _ p)).trans ?_
        split
        · rename_i e
          rw [e, hp]
          rfl
        · rfl
    · refine hs.concludes (resolve_concludes track hc hp hspent (not_exists.1 hv)) fun q e => ?_
      cases e
      exact hv ⟨q, rfl⟩

theorem Stride.flat (h : s.Stride track ledger os s') (hs : s.Flat)
    (hgiven : ∀ p q, .given p (.promise q) ∉ os) : s'.Flat := by
  -- What a stride ignores keeps its settlement, and almost all strides ignore all promises.
  have hignores : (∀ p, s.Ignores s' p) → s'.Flat := fun h =>
    hs.of_eq fun p => settlement?_of_phase (h p).phase
  have htaken : ∀ r, (s.takeFirst r).Flat := fun r => hs.of_eq fun _ => rfl
  cases h with
  | beside h _ => exact hignores fun p => ignores_of_eq h.promises h.jobs h.reactions
  | newPromise => exact hignores fun p => ignores_newPromise (.inl rfl)
  | newFulfilled v =>
    intro p q hp
    rw [Machine.newFulfilled, promise_newPromise] at hp
    split at hp
    · cases hp
      exact hgiven _ q List.mem_cons_self
    · exact hs p q hp
  | attach q => exact hs.of_eq fun p => settlement?_of_phase ((attach_attached track s q _).phase p)
  | call result hc => exact hs.settle hc result
  | answer result hc => exact hs.settle hc.made result
  | markHandled q => exact hignores fun p => ignores_markHandled q
  | all hne => exact hignores fun p => ignores_all s hne
  | enter | collect => exact hs.of_eq fun _ => rfl
  | @passOn r x p hjobs hr hp => exact (htaken r).settle (c := ⟨p, false⟩) hp x.toExcept
  | complete _ _ _ _ hc _ =>
    exact Flat.settle (s := (s.takeFirst _).fill _ _ _) (hs.of_eq fun _ => rfl) hc _
  | giveUp _ _ _ hc => exact Flat.settle (s := s.takeFirst _) (htaken _) hc _
  | adopt => exact hs.of_eq fun p => settlement?_of_phase ((attach_attached track _ _ _).phase p)
  | takeJob | queueImport => exact hs.of_eq fun _ => rfl

/-! ## Following -/

/-- One promise follows another one, or has followed it and has its settlement. -/
inductive Adopts (s : Machine σ κ) (es : List Incident) (p q : PromiseId) : Prop
  | queued : (s.promise p).phase = (true, none) → s.toFollow p = [q] → (∀ r, ¬s.PassesTo p r) →
      Adopts s es p q
  | waits {r : ReactionId} : (s.promise p).phase = (true, none) → s.toFollow p = [] →
      s.PassesTo p r → (∀ r', s.PassesTo p r' → r' = r) → .attached q r ∈ es → Adopts s es p q
  | settled {x : Settlement} : (s.promise p).settlement? = some x →
      (s.promise q).settlement? = some x → s.toFollow p = [] → (∀ r, ¬s.PassesTo p r) →
        Adopts s es p q

/-- How far a promise has come after these attempts to settle it. -/
structure Stage (s : Machine σ κ) (es : List Incident) (p : PromiseId)
    (attempts : List (Except Value Value)) : Prop where
  untried : attempts = [] → s.Untried p
  adopts : ∀ q, attempts.head? = some (.ok (.promise q)) → q ≠ p → s.Adopts es p q

theorem Adopts.ignores (h : s.Adopts es p q) (hi : s.Ignores s' p)
    (hq : ∀ x, (s.promise q).settlement? = some x → (s'.promise q).settlement? = some x)
    (es' : List Incident) : s'.Adopts (es ++ es') p q := by
  cases h with
  | queued hphase hfollow hpasses =>
    exact .queued (hi.phase.trans hphase) (hi.toFollow.trans hfollow)
      fun r hr => hpasses r ((hi.passes r).1 hr)
  | @waits r hphase hfollow hpasses hsole hr =>
    exact .waits (hi.phase.trans hphase) (hi.toFollow.trans hfollow) ((hi.passes r).2 hpasses)
      (fun r' hr' => hsole r' ((hi.passes r').1 hr')) (List.mem_append_left _ hr)
  | settled hp hx hfollow hpasses =>
    exact .settled ((settlement?_of_phase hi.phase).trans hp) (hq _ hx)
      (hi.toFollow.trans hfollow) fun r hr => hpasses r ((hi.passes r).1 hr)

theorem Adopts.isSpent (h : s.Adopts es p q) : s.isSpent ⟨p, true⟩ := by
  rw [isSpent_iff]
  cases h with
  | queued hphase | waits hphase => exact .inr ⟨rfl, by rw [hphase]⟩
  | settled hp => exact .inl fun hnone => by cases hnone.symm.trans hp

/-- The first attempt lets the promise follow another one. -/
theorem Untried.resolve (h : s.Untried p) (hp : s.Made p) (hq : q ≠ p) :
    (s.settle track ⟨p, true⟩ (.ok (.promise q))).Adopts es p q := by
  have hspent : ¬s.isSpent ⟨p, true⟩ := not_isSpent_of_undecided (c := ⟨p, true⟩) h.undecided
  obtain ⟨rs, b, hs⟩ := pending_of_not_isSpent hspent
  rw [settle, resolve_follows track (c := ⟨p, true⟩) hp hs hspent hq]
  refine .queued ?_ ?_ h.passes
  · exact congrArg PromiseState.phase ((promise_setPromise hp _ p).trans (if_pos rfl))
  · refine List.filterMap_append.trans ?_
    have hnil : s.jobs.filterMap (Job.follow? p) = [] := h.toFollow
    refine (congrArg (· ++ _) hnil).trans ?_
    simp [Job.follow?]

section Stage

variable {attempts : List (Except Value Value)} (h : s.Stage es p attempts) (es' : List Incident)
include h

theorem Stage.ignores (hi : s.Ignores s' p)
    (hq : ∀ q x, (s.promise q).settlement? = some x → (s'.promise q).settlement? = some x) :
    s'.Stage (es ++ es') p attempts where
  untried hnil := (h.untried hnil).ignores hi
  adopts q hhead hne := (h.adopts q hhead hne).ignores hi (hq q) es'

theorem Stage.attempt (hi : s.Ignores u p) (hp : u.Made p) (result : Except Value Value)
    (hq : ∀ q x, (s.promise q).settlement? = some x →
      ((u.settle track ⟨p, true⟩ result).promise q).settlement? = some x) :
    (u.settle track ⟨p, true⟩ result).Stage (es ++ es') p (attempts ++ [result]) where
  untried hnil := absurd hnil (by simp)
  adopts q hhead hne := by
    cases attempts with
    | nil =>
      cases hhead
      exact ((h.untried rfl).ignores hi).resolve hp hne
    | cons first rest =>
      have hadopts := h.adopts q hhead hne
      have hspent : u.isSpent ⟨p, true⟩ := by
        have hs := hadopts.isSpent
        rw [isSpent_iff] at hs ⊢
        rwa [settlement?_of_phase hi.phase, hi.phase]
      rw [settle_of_isSpent hspent] at hq ⊢
      exact hadopts.ignores hi (hq q) es'

/-- The settlement of the followed promise is passed on. -/
theorem Stage.pass (haccounts : s.Accounts es) (hflat : s.Flat) {x : Settlement}
    (hjobs : s.jobs.head? = some (.react r x)) (hr : s.PassesTo p r) (hp : s.Made p)
    (hq : ∀ q x', (s.promise q).settlement? = some x' →
      (((s.takeFirst r).settle track ⟨p, false⟩ x.toExcept).promise q).settlement? = some x') :
    ((s.takeFirst r).settle track ⟨p, false⟩ x.toExcept).Stage (es ++ es') p attempts where
  untried hnil := absurd hr ((h.untried hnil).passes r)
  adopts q hhead hne := by
    cases h.adopts q hhead hne with
    | queued _ _ hpasses | settled _ _ _ hpasses => exact absurd hr (hpasses r)
    | waits hphase hfollow _ hsole hattached =>
      rw [← hsole r hr] at hattached
      have hx : (s.promise q).settlement? = some x := haccounts.result q r x hattached
        (List.mem_append_right _ (mem_queue.2 (List.mem_of_mem_head? hjobs)))
      have hspent : ¬(s.takeFirst r).isSpent ⟨p, false⟩ := by
        have hnone : (s.promise p).settlement? = none := by rw [← PromiseState.phase_snd, hphase]
        rw [isSpent_iff]
        rintro (hsettled | ⟨⟨⟩, -⟩)
        exact hsettled hnone
      obtain ⟨rs, b, hs⟩ := pending_of_not_isSpent hspent
      have hconcludes : (s.takeFirst r).Concludes track
          ((s.takeFirst r).settle track ⟨p, false⟩ x.toExcept) p rs x := by
        cases x with
        | fulfilled v =>
          refine resolve_concludes track (s := s.takeFirst r) (c := ⟨p, false⟩) hp hs hspent ?_
          rintro q' rfl
          exact hflat q q' hx
        | rejected e =>
          exact reject_concludes track (s := s.takeFirst r) (c := ⟨p, false⟩) hp hs hspent e
      refine .settled (x := x) ?_ (hq q x hx) ?_ fun r' hr' => ?_
      · rw [hconcludes.promise, if_pos rfl, Settlement.settlement?_state]
      · refine (toFollow_append hconcludes.jobs fun job hjob => ?_).trans
          ((toFollow_tail hjobs rfl rfl).trans hfollow)
        obtain ⟨r', -, rfl⟩ := List.mem_map.1 hjob
        rfl
      · rw [PassesTo, reaction?_of_eq hconcludes.reactions, reaction?_takeFirst] at hr'
        split at hr'
        · cases hr'
        · rename_i hne'
          exact hne' ((hsole r' hr').trans (hsole r hr).symm)

/-- The job that lets the promise follow the other one is run. -/
theorem Stage.adopt {q : PromiseId} (hjobs : s.jobs.head? = some (.adopt p q))
    (hq : s.attaching q = .attached q s.nextReaction) :
    (({ s with jobs := s.jobs.tail } : Machine σ κ).attach track q
      ⟨.passOn, some ⟨p, false⟩⟩).Stage (es ++ [s.attaching q]) p attempts := by
  have hfollow := toFollow_of_head hjobs
  refine ⟨fun hnil => ?_, fun q' hhead hne => ?_⟩
  · cases hfollow.symm.trans (h.untried hnil).toFollow
  cases h.adopts q' hhead hne with
  | waits _ hnil | settled _ _ hnil => cases hfollow.symm.trans hnil
  | queued hphase hone hpasses =>
    obtain ⟨rfl, hnil⟩ := List.cons.inj (hfollow.symm.trans hone)
    have hpassed := passesTo_attach (p := p) track ({ s with jobs := s.jobs.tail } : Machine σ κ) q
      ⟨.passOn, some ⟨p, false⟩⟩
    refine .waits (r := s.nextReaction) ?_ ?_ ((hpassed _).2 (.inl ⟨rfl, rfl⟩))
      (fun r' hr' => ?_) ?_
    · exact ((attach_attached track _ q _).phase p).trans hphase
    · rw [toFollow_attach]
      exact hnil
    · exact ((hpassed r').1 hr').elim And.left fun hr' => absurd hr' (hpasses r')
    · rw [hq]
      exact List.mem_append_right _ (List.mem_singleton_self _)

/-- What one stride does to a promise. While the promise is pending, nothing is tried through a
capability that settles it though it follows another one. -/
theorem Stride.stage (hstride : s.Stride track ledger os s') (haccounts : s.Accounts es)
    (hflat : s.Flat) (hgiven : ∀ v, .given p v ∉ os)
    (hloose : (s.promise p).settlement? = none → attemptsThrough os ⟨p, false⟩ = [])
    (hlost : ∀ r, .incident (.lost r) ∉ os) :
    s'.Stage (es ++ incidentsIn os) p (attempts ++ attemptsThrough os ⟨p, true⟩) := by
  have hq : ∀ q x, (s.promise q).settlement? = some x → (s'.promise q).settlement? = some x :=
    fun q x => (hstride.history.becomes q).settlement
  cases hstride.deals hgiven with
  | ignores hi hnil =>
    rw [hnil, List.append_nil]
    exact h.ignores _ hi hq
  | @attempts u strict result hi hp hs' hone =>
    cases strict with
    | true =>
      rw [hone, if_pos rfl]
      subst hs'
      exact h.attempt _ hi hp _ hq
    | false =>
      have hspent : u.isSpent ⟨p, false⟩ := by
        rw [isSpent_iff, settlement?_of_phase hi.phase]
        refine .inl fun hnone => ?_
        cases ((hone _).trans (if_pos rfl)).symm.trans (hloose hnone)
      rw [hone, if_neg (by simp), List.append_nil]
      rw [settle_of_isSpent hspent] at hs'
      subst hs'
      exact h.ignores _ hi hq
  | passes hjobs hr hp hs' hnil =>
    rw [hnil, List.append_nil]
    subst hs'
    exact h.pass _ haccounts hflat hjobs hr hp hq
  | @adopts q hjobs hs' hos =>
    subst hs' hos
    rw [attemptsThrough_cons_none rfl, show attemptsThrough [] ⟨p, true⟩ = [] from rfl,
      List.append_nil]
    refine h.adopt hjobs ?_
    rw [attaching]
    split
    · rfl
    · rename_i hlt
      have hnone := hlost s.nextReaction
      rw [attaching, if_neg hlt] at hnone
      exact absurd (List.mem_singleton_self _) hnone

end Stage

theorem untried_initial (h : σ) (p : PromiseId) : (initial h : Machine σ κ).Untried p where
  undecided := by
    rw [Undecided, promise_of_not_made (Nat.not_lt_zero _)]
    rfl
  toFollow := rfl
  passes r hr := by
    rw [PassesTo, reaction?, initial] at hr
    simp at hr

theorem Journey.stage (ho : (initial h₀ : Machine σ κ).Journey track ledger owned os s)
    (hgiven : ∀ p q, .given p (.promise q) ∉ os) (hlost : ∀ r, .incident (.lost r) ∉ os)
    (hp : ∀ v, .given p v ∉ os) (hloose : attemptsThrough (untilSettled p os) ⟨p, false⟩ = []) :
    s.Flat ∧ s.Stage (incidentsIn os) p (attemptsThrough os ⟨p, true⟩) := by
  induction ho with
  | nil =>
    refine ⟨fun q q' hq => ?_, fun _ => untried_initial h₀ p, nofun⟩
    rw [promise_of_not_made (Nat.not_lt_zero _)] at hq
    cases hq
  | @snoc os os' s s' ho hstride _ ih =>
    simp only [List.mem_append, not_or] at hgiven hlost hp
    rw [untilSettled_append, attemptsThrough_append, List.append_eq_nil_iff] at hloose
    obtain ⟨hbefore, hloose⟩ := hloose
    have hafter : (s.promise p).settlement? = none → attemptsThrough os' ⟨p, false⟩ = [] := by
      intro hnone
      have hopen : ¬os.any (·.settles p) := fun hsettled => by
        obtain ⟨o, ho', hsettles⟩ := List.any_eq_true.1 hsettled
        obtain ⟨x, rfl⟩ := exists_of_settles hsettles
        have hx := (ho.history.settlesOnce.recorded p x).2 (mem_incidentsIn.2 ho')
        cases hnone.symm.trans hx
      rwa [if_neg hopen, hstride.attemptsThrough_untilSettled] at hloose
    obtain ⟨hflat, hstage⟩ := ih (fun p q => (hgiven p q).1) (fun r => (hlost r).1)
      (fun v => (hp v).1) hbefore
    rw [incidentsIn_append, attemptsThrough_append]
    exact ⟨hstride.flat hflat fun p q => (hgiven p q).2,
      hstride.stage hstage ho.history.accounts hflat (fun v => (hp v).2) hafter
        fun r => (hlost r).2⟩

/-- While a promise follows another one and no job is queued, both are pending or both have the same
settlement. -/
theorem Adopts.idle (h : s.Adopts es p q) (haccounts : s.Accounts es) (hjobs : s.jobs = []) :
    (s.promise p).settlement? = (s.promise q).settlement? := by
  cases h with
  | queued _ hfollow =>
    rw [toFollow, hjobs] at hfollow
    cases hfollow
  | settled hp hq => rw [hp, hq]
  | @waits r hphase _ hpasses _ hr =>
    have hnone : (s.promise p).settlement? = none := by rw [← PromiseState.phase_snd, hphase]
    rw [hnone]
    refine Eq.symm ?_
    by_contra hne
    obtain ⟨x, hx⟩ := Option.ne_none_iff_exists'.1 hne
    -- The reaction would have run.
    have hran : (r, x) ∈ runsIn es := by
      have hmem := List.mem_singleton_self (r, x)
      rw [← haccounts.idle hjobs hr hx] at hmem
      exact (List.mem_filter.1 hmem).1
    cases hpasses.symm.trans ((haccounts.slot q r hr).2 ⟨x, hran⟩)

/-- A promise that is first resolved with another one has the outcome of that one. Whatever
operations do is a journey, and this holds at each machine of a journey without jobs, unless the
promise was settled through a capability that does not ask for an unresolved one. -/
theorem followers_adopt_outcomes (h : Operates hosts rank track ledger owned) :
    (∀ s s', s.Arises hosts track ledger owned h₀ → s.Uses hosts track ledger owned s' →
      ∃ os os', (initial h₀).Journey track ledger owned os s ∧
        s.Journey track ledger owned os' s') ∧
    ∀ os s, (initial h₀ : Machine σ κ).Journey track ledger owned os s →
      (∀ p q, .given p (.promise q) ∉ os) → (∀ r, .incident (.lost r) ∉ os) → s.jobs = [] →
      ∀ p q, q ≠ p → (∀ v, .given p v ∉ os) →
        attemptsThrough (untilSettled p os) ⟨p, false⟩ = [] →
        (attemptsThrough os ⟨p, true⟩).head? = some (.ok (.promise q)) →
          (s.promise p).settlement? = (s.promise q).settlement? := by
  refine ⟨fun _ _ hs hs' => h.journey hs hs', ?_⟩
  intro os s ho hgiven hlost hjobs p q hne hp hloose hfirst
  have hstage := (ho.stage hgiven hlost hp hloose).2
  exact (hstage.adopts q hfirst hne).idle ho.history.accounts hjobs

end Machine

namespace Recorder

open Machine

def pair : Machine Told Unit := (initial []).newCapability.2.newCapability.2

def following : Machine Told Unit := pair.settle host.track ⟨⟨0⟩, true⟩ (.ok (.promise ⟨1⟩))

def followed : Machine Told Unit := following.settle host.track ⟨⟨1⟩, true⟩ (.ok .undefined)

theorem arises_following : following.Arises hosts host.track id owned [] :=
  ⟨fun _ => id, .head (.newCapability _) (.head (.newCapability _) (.single
    (.settle pair (c := ⟨⟨0⟩, true⟩) _ Nat.two_pos)))⟩

theorem journey_following : (initial []).Journey host.track id owned
    [.made ⟨0⟩, .made ⟨1⟩, .called ⟨⟨0⟩, true⟩ (.ok (.promise ⟨1⟩))] following := by
  have hnew : ∀ s : Machine Told Unit, s.Travels host.track id owned s.newCapability.2 :=
    fun s => travels_newPromise s ⟨rfl, rfl⟩
  have hresolve : pair.Travels host.track id owned following :=
    travels_call operates.discreet pair (c := ⟨⟨0⟩, true⟩) (.ok (.promise ⟨1⟩)) Nat.two_pos
  have hs₁ := (hnew (initial []) (orderly_initial fun _ => id)).1
  have hs₂ := (hnew _ hs₁).1
  have hs₃ := (hresolve hs₂).1
  exact ((Journey.single (.newPromise _) hs₁).snoc (.newPromise _) hs₂).snoc
    (.call pair (c := ⟨⟨0⟩, true⟩) (.ok (.promise ⟨1⟩)) Nat.two_pos) hs₃

def waiting : Machine Told Unit :=
  ({ followed with jobs := followed.jobs.tail } : Machine Told Unit).attach host.track ⟨1⟩
    ⟨.passOn, some ⟨⟨0⟩, false⟩⟩

def adopted : Machine Told Unit :=
  (waiting.takeFirst ⟨0⟩).settle host.track ⟨⟨0⟩, false⟩ (.ok .undefined)

theorem uses_adopted : following.Uses hosts host.track id owned adopted :=
  have hwaiting : runNextJob host followed = some (.ok true, waiting) := by rfl
  have hadopted : runNextJob host waiting = some (.ok true, adopted) := by rfl
  .head (.settle following (c := ⟨⟨1⟩, true⟩) _ Nat.one_lt_two)
    (.head (.job rfl hwaiting) (.single (.job rfl hadopted)))

/-- What occurs until both are fulfilled. -/
def adoption : List Occurrence :=
  [.made ⟨0⟩, .made ⟨1⟩, .called ⟨⟨0⟩, true⟩ (.ok (.promise ⟨1⟩)),
    .called ⟨⟨1⟩, true⟩ (.ok .undefined), .incident (.settled ⟨1⟩ (.fulfilled .undefined)),
    .incident (.attached ⟨1⟩ ⟨0⟩), .incident (.ran ⟨0⟩ (.fulfilled .undefined)),
    .passed ⟨0⟩ (.fulfilled .undefined), .incident (.settled ⟨0⟩ (.fulfilled .undefined))]

theorem journey_adopted : (initial []).Journey host.track id owned adoption adopted := by
  have hs := journey_following.orderly (orderly_initial fun _ => id)
  have hfollowed : following.Travels host.track id owned followed :=
    travels_call operates.discreet following (c := ⟨⟨1⟩, true⟩) (.ok .undefined) Nat.one_lt_two
  have hwaiting : followed.Travels host.track id owned waiting :=
    travels_adopt operates.discreet (s := followed) rfl
  have hadopted : waiting.Travels host.track id owned adopted :=
    travels_passOn operates.discreet (s := waiting) (p := ⟨0⟩) (x := .fulfilled .undefined) rfl rfl
      Nat.two_pos
  have hs₁ := (hfollowed hs).1
  have hs₂ := (hwaiting hs₁).1
  have hs₃ := (hadopted hs₂).1
  have hcall : following.Stride host.track id
      [.called ⟨⟨1⟩, true⟩ (.ok .undefined), .incident (.settled ⟨1⟩ (.fulfilled .undefined))]
      followed := .call following (.ok .undefined) Nat.one_lt_two
  have hadopt : followed.Stride host.track id [.incident (.attached ⟨1⟩ ⟨0⟩)] waiting :=
    .adopt (s := followed) rfl Nat.two_pos
  have hpass : waiting.Stride host.track id
      [.incident (.ran ⟨0⟩ (.fulfilled .undefined)), .passed ⟨0⟩ (.fulfilled .undefined),
        .incident (.settled ⟨0⟩ (.fulfilled .undefined))] adopted :=
    .passOn (s := waiting) rfl rfl Nat.two_pos
  exact ((journey_following.snoc hcall hs₁).snoc hadopt hs₂).snoc hpass hs₃

/-- The first one is rejected though it follows the second one, which stays pending. -/
def overruled : Machine Told Unit := following.settle host.track ⟨⟨0⟩, false⟩ (.error .undefined)

def parted : Machine Told Unit :=
  ({ overruled with jobs := overruled.jobs.tail } : Machine Told Unit).attach host.track ⟨1⟩
    ⟨.passOn, some ⟨⟨0⟩, false⟩⟩

theorem uses_parted : following.Uses hosts host.track id owned parted :=
  have hparted : runNextJob host overruled = some (.ok true, parted) := by rfl
  .head (.settle following (c := ⟨⟨0⟩, false⟩) _ Nat.two_pos) (.single (.job rfl hparted))

def parting : List Occurrence :=
  [.made ⟨0⟩, .made ⟨1⟩, .called ⟨⟨0⟩, true⟩ (.ok (.promise ⟨1⟩)),
    .called ⟨⟨0⟩, false⟩ (.error .undefined), .incident (.settled ⟨0⟩ (.rejected .undefined)),
    .incident (.attached ⟨1⟩ ⟨0⟩)]

theorem journey_parted : (initial []).Journey host.track id owned parting parted := by
  have hs := journey_following.orderly (orderly_initial fun _ => id)
  have hoverruled : following.Travels host.track id owned overruled :=
    travels_call operates.discreet following (c := ⟨⟨0⟩, false⟩) (.error .undefined) Nat.two_pos
  have hparted : overruled.Travels host.track id owned parted :=
    travels_adopt operates.discreet (s := overruled) rfl
  have hs₁ := (hoverruled hs).1
  have hs₂ := (hparted hs₁).1
  have hcall : following.Stride host.track id
      [.called ⟨⟨0⟩, false⟩ (.error .undefined), .incident (.settled ⟨0⟩ (.rejected .undefined))]
      overruled := .call following (.error .undefined) Nat.two_pos
  have hadopt : overruled.Stride host.track id [.incident (.attached ⟨1⟩ ⟨0⟩)] parted :=
    .adopt (s := overruled) rfl Nat.two_pos
  exact (journey_following.snoc hcall hs₁).snoc hadopt hs₂

end Recorder

open Recorder in
/-- A promise that was resolved with a fulfilled one is fulfilled, too, once the jobs have run. -/
theorem followers_adopt_outcomes_fulfilled :
    Operates hosts (fun _ => 0) host.track id owned ∧
    following.Arises hosts host.track id owned [] ∧
    following.Uses hosts host.track id owned adopted ∧
    (Machine.initial []).Journey host.track id owned adoption adopted ∧
    (∀ p q, .given p (.promise q) ∉ adoption) ∧ (∀ r, .incident (.lost r) ∉ adoption) ∧
    adopted.jobs = [] ∧ (⟨1⟩ : PromiseId) ≠ ⟨0⟩ ∧ (∀ v, .given ⟨0⟩ v ∉ adoption) ∧
    attemptsThrough (untilSettled ⟨0⟩ adoption) ⟨⟨0⟩, false⟩ = [] ∧
    (attemptsThrough adoption ⟨⟨0⟩, true⟩).head? = some (.ok (.promise ⟨1⟩)) ∧
    (adopted.promise ⟨1⟩).settlement? = some (.fulfilled .undefined) ∧
    (adopted.promise ⟨0⟩).settlement? = (adopted.promise ⟨1⟩).settlement? := by
  have hgiven : ∀ p v, .given p v ∉ adoption := by simp [adoption]
  have hlost : ∀ r, .incident (.lost r) ∉ adoption := by simp [adoption]
  exact ⟨operates, arises_following, uses_adopted, journey_adopted, fun p q => hgiven p _, hlost,
    rfl, by simp, hgiven _, rfl, rfl, rfl,
    (Machine.followers_adopt_outcomes operates).2 _ _ journey_adopted (fun p q => hgiven p _) hlost
      rfl ⟨0⟩ ⟨1⟩ (by simp) (hgiven _) rfl rfl⟩

open Recorder in
/-- A capability that need not find its promise unresolved rejects one that follows another one. The
promise is rejected, and the other one stays pending. -/
theorem follower_overruled :
    following.Arises hosts host.track id owned [] ∧
    following.Uses hosts host.track id owned parted ∧
    (∃ os, (Machine.initial []).Journey host.track id owned os parted ∧
      (∀ p q, .given p (.promise q) ∉ os) ∧ (∀ r, .incident (.lost r) ∉ os) ∧
      (∀ v, .given ⟨0⟩ v ∉ os) ∧
      (attemptsThrough os ⟨⟨0⟩, true⟩).head? = some (.ok (.promise ⟨1⟩))) ∧
    parted.jobs = [] ∧
    (parted.promise ⟨0⟩).settlement? = some (.rejected .undefined) ∧
    (parted.promise ⟨1⟩).settlement? = none := by
  have hgiven : ∀ p v, .given p v ∉ parting := by simp [parting]
  exact ⟨arises_following, uses_parted,
    ⟨parting, journey_parted, fun p q => hgiven p _, by simp [parting], hgiven _, rfl⟩,
    rfl, rfl, rfl⟩

end ModuleGraph

import Mathlib.Data.List.TakeWhile
import ModuleGraph.Proofs.Histories.Itineraries

/-! # How a journey deals with one promise

Most strides ignore a promise. What has to do with it are attempts to settle it, jobs that let it
follow another one, and reactions that pass the settlement of that one on to it. -/

namespace ModuleGraph

variable {σ κ α : Type}

/-! ## Attempts to settle -/

def Occurrence.attempt? : Occurrence → Option (Capability × Except Value Value)
  | .called c result | .answered c result => some (c, result)
  | .incident _ | .made _ | .given .. | .passed .. => none

def attemptsThrough (os : List Occurrence) (c : Capability) : List (Except Value Value) :=
  ((os.filterMap Occurrence.attempt?).filter (·.1 = c)).map (·.2)

@[simp] theorem attemptsThrough_append (os os' : List Occurrence) (c : Capability) :
    attemptsThrough (os ++ os') c = attemptsThrough os c ++ attemptsThrough os' c := by
  simp [attemptsThrough]

@[simp] theorem attemptsThrough_incidents (es : List Incident) (c : Capability) :
    attemptsThrough (es.map .incident) c = [] := by
  have hnone : (es.map Occurrence.incident).filterMap Occurrence.attempt? = [] := by
    rw [List.filterMap_map]
    exact List.filterMap_eq_nil_iff.2 fun _ _ => rfl
  rw [attemptsThrough, hnone]
  rfl

/-- The capability is used once, and what follows are incidents. -/
theorem attemptsThrough_cons {o : Occurrence} {c d : Capability} {result : Except Value Value}
    (ho : o.attempt? = some (d, result)) (es : List Incident) :
    attemptsThrough (o :: es.map .incident) c = if d = c then [result] else [] := by
  have hone : attemptsThrough [o] c = if d = c then [result] else [] := by
    rw [attemptsThrough, List.filterMap_cons_some ho, List.filterMap_nil]
    by_cases hc : d = c <;> simp [hc]
  rw [← List.singleton_append, attemptsThrough_append, attemptsThrough_incidents, List.append_nil,
    hone]

theorem attemptsThrough_cons_none {o : Occurrence} (ho : o.attempt? = none) (os : List Occurrence)
    (c : Capability) : attemptsThrough (o :: os) c = attemptsThrough os c := by
  rw [attemptsThrough, List.filterMap_cons_none ho, attemptsThrough]

def Occurrence.settles (p : PromiseId) : Occurrence → Bool
  | .incident (.settled q _) => q = p
  | .incident _ | .made _ | .given .. | .called .. | .answered .. | .passed .. => false

theorem exists_of_settles {p : PromiseId} {o : Occurrence} (h : o.settles p = true) :
    ∃ x, o = .incident (.settled p x) := by
  cases o with
  | incident e =>
    cases e with
    | settled q x =>
      cases of_decide_eq_true h
      exact ⟨x, rfl⟩
    | attached | lost | consumed | ran => cases h
  | made | given | called | answered | passed => cases h

def untilSettled (p : PromiseId) (os : List Occurrence) : List Occurrence :=
  os.takeWhile fun o => !o.settles p

theorem untilSettled_append (p : PromiseId) (os os' : List Occurrence) :
    untilSettled p (os ++ os') =
      untilSettled p os ++ if os.any (·.settles p) then [] else untilSettled p os' := by
  induction os with
  | nil => rfl
  | cons o os ih =>
    simp only [untilSettled] at ih ⊢
    by_cases h : o.settles p <;> simp [h, ih]

theorem untilSettled_eq_self {p : PromiseId} {os : List Occurrence}
    (h : ∀ o ∈ os, o.settles p = false) : untilSettled p os = os :=
  List.takeWhile_eq_self_iff.2 fun o ho => by rw [h o ho, Bool.not_false]

/-- In one stride a promise is settled after the attempt to do so. -/
theorem attemptsThrough_untilSettled {p : PromiseId} {os : List Occurrence}
    (h : ∀ o ∈ os, o.settles p = false) (es : List Incident) (c : Capability) :
    attemptsThrough (untilSettled p (os ++ es.map .incident)) c =
      attemptsThrough (os ++ es.map .incident) c := by
  have hnone : untilSettled p (es.map .incident) =
      (es.takeWhile fun e => !(Occurrence.incident e).settles p).map .incident :=
    List.takeWhile_map ..
  rw [untilSettled_append, untilSettled_eq_self h, attemptsThrough_append, attemptsThrough_append,
    hnone, attemptsThrough_incidents]
  split
  · rfl
  · rw [attemptsThrough_incidents]

def Job.follow? (p : PromiseId) : Job → Option PromiseId
  | .adopt p' q => if p' = p then some q else none
  | .react .. | .finishImport .. => none

namespace Machine

variable {track : Tracker σ} {ledger : σ → α} {owned : σ → PromiseId → Prop}
variable {hosts : Set (Host σ κ)} {rank : Host σ κ → Nat} {h₀ : σ}
variable {s s' s'' u : Machine σ κ} {p q : PromiseId} {r : ReactionId}
variable {os os' : List Occurrence} {es : List Incident}

/-! ## What has to do with a promise that follows -/

def toFollow (s : Machine σ κ) (p : PromiseId) : List PromiseId :=
  s.jobs.filterMap (Job.follow? p)

def PassesTo (s : Machine σ κ) (p : PromiseId) (r : ReactionId) : Prop :=
  s.reaction? r = some ⟨.passOn, some ⟨p, false⟩⟩

structure Ignores (s s' : Machine σ κ) (p : PromiseId) : Prop where
  phase : (s'.promise p).phase = (s.promise p).phase
  toFollow : s'.toFollow p = s.toFollow p
  passes : ∀ r, s'.PassesTo p r ↔ s.PassesTo p r

theorem Ignores.refl (s : Machine σ κ) (p : PromiseId) : s.Ignores s p :=
  ⟨rfl, rfl, fun _ => Iff.rfl⟩

theorem Ignores.trans (h : s.Ignores s' p) (h' : s'.Ignores s'' p) : s.Ignores s'' p :=
  ⟨h'.phase.trans h.phase, h'.toFollow.trans h.toFollow,
    fun r => (h'.passes r).trans (h.passes r)⟩

theorem ignores_of_eq (hpromises : s'.promises = s.promises) (hjobs : s'.jobs = s.jobs)
    (hreactions : s'.reactions = s.reactions) : s.Ignores s' p where
  phase := by rw [promise_of_promises hpromises]
  toFollow := by rw [Machine.toFollow, hjobs, Machine.toFollow]
  passes r := by rw [PassesTo, reaction?_of_eq hreactions, PassesTo]

theorem ignores_newJoin (s : Machine σ κ) (j : Join) : s.Ignores (s.newJoin j).2 p :=
  ignores_of_eq rfl rfl rfl

theorem ignores_newPromise {st : PromiseState}
    (hst : st.phase = (false, none) ∨ p ≠ s.nextPromise) : s.Ignores (s.newPromise st).2 p where
  phase := by
    rw [promise_newPromise]
    split
    · rename_i e
      rw [hst.resolve_right fun hne => hne e, e, promise_of_not_made (not_made_nextPromise s)]
      rfl
    · rfl
  toFollow := rfl
  passes _ := Iff.rfl

/-- Jobs of other kinds, or for other promises, are queued. -/
theorem toFollow_append {jobs : List Job} (h : s'.jobs = s.jobs ++ jobs)
    (hjobs : ∀ job ∈ jobs, job.follow? p = none) : s'.toFollow p = s.toFollow p := by
  rw [toFollow, h, List.filterMap_append, List.filterMap_eq_nil_iff.2 hjobs, List.append_nil,
    toFollow]

/-- A job of another kind, or for another promise, is taken. -/
theorem toFollow_tail {job : Job} (hhead : s.jobs.head? = some job) (hjob : job.follow? p = none)
    (h : s'.jobs = s.jobs.tail) : s'.toFollow p = s.toFollow p := by
  obtain ⟨rest, hrest⟩ := List.head?_eq_some_iff.1 hhead
  rw [toFollow, h, toFollow, hrest, List.tail_cons, List.filterMap_cons_none hjob]

theorem toFollow_of_head (hjobs : s.jobs.head? = some (.adopt p q)) :
    s.toFollow p = q :: s.jobs.tail.filterMap (Job.follow? p) := by
  obtain ⟨rest, hrest⟩ := List.head?_eq_some_iff.1 hjobs
  have hjob : (Job.adopt p q).follow? p = some q := if_pos rfl
  rw [toFollow, hrest, List.filterMap_cons_some hjob, List.tail_cons]

theorem passesTo_attach (track : Tracker σ) (s : Machine σ κ) (q : PromiseId)
    (reaction : Reaction κ) (r : ReactionId) :
    (s.attach track q reaction).PassesTo p r ↔
      r = s.nextReaction ∧ reaction = ⟨.passOn, some ⟨p, false⟩⟩ ∨ s.PassesTo p r := by
  rw [PassesTo, reaction?_attach]
  split
  · rename_i e
    refine ⟨fun h => .inl ⟨e, Option.some.inj h⟩, fun h => ?_⟩
    obtain ⟨-, rfl⟩ | h := h
    · rfl
    · exact absurd e (ne_nextReaction (lt_of_reaction? h))
  · rename_i hne
    exact ⟨.inr, fun h => h.resolve_left fun e => hne e.1⟩

theorem toFollow_attach (track : Tracker σ) (s : Machine σ κ) (q : PromiseId)
    (reaction : Reaction κ) : (s.attach track q reaction).toFollow p = s.toFollow p := by
  refine toFollow_append (jobs_attach track s q reaction) fun job hjob => ?_
  obtain ⟨x, -, rfl⟩ := Option.map_eq_some_iff.1 (Option.mem_toList.1 hjob)
  rfl

theorem ignores_attach (q : PromiseId) {reaction : Reaction κ}
    (h : reaction ≠ ⟨.passOn, some ⟨p, false⟩⟩) : s.Ignores (s.attach track q reaction) p where
  phase := (attach_attached track s q reaction).phase p
  toFollow := toFollow_attach track s q reaction
  passes r := (passesTo_attach track s q reaction r).trans (or_iff_right fun e => h e.2)

theorem ignores_attachJoined (ps : List PromiseId) :
    ∀ (s : Machine σ κ) (j : JoinId) (k : Nat), s.Ignores (s.attachJoined track j k ps) p := by
  induction ps with
  | nil => exact fun s _ _ => .refl s p
  | cons q rest ih =>
    exact fun s j k => (ignores_attach q fun e => by cases e).trans (ih _ j (k + 1))

theorem ignores_all (s : Machine σ κ) {ps : List PromiseId} (hps : ps ≠ []) :
    s.Ignores (s.all track ps).2 p := by
  rw [all_of_ne_nil track s hps]
  have hnew : s.Ignores s.newCapability.2 p := ignores_newPromise (.inl rfl)
  exact hnew.trans ((ignores_newJoin _ _).trans (ignores_attachJoined _ _ _ _))

theorem ignores_markHandled (q : PromiseId) : s.Ignores (s.markHandled track q) p := by
  have hu : s.Unmoved (fun _ => []) (s.markHandled track q) :=
    .markHandled (by exact fun _ _ _ => rfl) s q
  refine ⟨hu.phase p, ?_, fun r => ?_⟩
  · rw [toFollow, hu.jobs, toFollow]
  · rw [PassesTo, reaction?_of_eq hu.reactions, PassesTo]

theorem ignores_settle {c : Capability} (hc : s.Made c.promise) (hp : c.promise ≠ p)
    (result : Except Value Value) : s.Ignores (s.settle track c result) p := by
  obtain ⟨-, hs⟩ | ⟨q, -, hs⟩ | ⟨x, -, hs⟩ := settle_attempts track hc result
  · rw [hs]
    exact .refl s p
  · rw [hs]
    have hjobs : ∀ job ∈ [Job.adopt c.promise q], job.follow? p = none := fun job hjob => by
      rw [List.mem_singleton.1 hjob]
      exact if_neg hp
    refine ⟨?_, toFollow_append rfl hjobs, fun _ => Iff.rfl⟩
    exact congrArg PromiseState.phase ((promise_setPromise hc _ p).trans (if_neg (Ne.symm hp)))
  · refine ⟨by rw [hs.promise, if_neg (Ne.symm hp)], toFollow_append hs.jobs fun job hjob => ?_,
      fun r => by rw [PassesTo, reaction?_of_eq hs.reactions, PassesTo]⟩
    obtain ⟨r, -, rfl⟩ := List.mem_map.1 hjob
    rfl

theorem ignores_takeFirst {x : Settlement} (hjobs : s.jobs.head? = some (.react r x))
    (hr : ¬s.PassesTo p r) : s.Ignores (s.takeFirst r) p where
  phase := rfl
  toFollow := toFollow_tail hjobs rfl rfl
  passes r' := by
    rw [PassesTo, reaction?_takeFirst]
    split
    · rename_i e
      exact iff_of_false nofun (e ▸ hr)
    · rfl

/-! ## How a stride deals with a promise -/

/-- Who tries to settle a promise: the host, an operation to which the promise was entrusted, or a
joint wait. -/
inductive Tries (s : Machine σ κ) (os : List Occurrence) (c : Capability)
    (result : Except Value Value) : Prop
  | called : .called c result ∈ os → Tries s os c result
  | entrusted : s.Separate c.promise → Tries s os c result
  | joint {r : ReactionId} {x : Settlement} {j : JoinId} {k : Nat} :
      s.reaction? r = some ⟨.joined j k, none⟩ → (s.join j).capability = c →
        .incident (.ran r x) ∈ os → Tries s os c result

/-- A stride ignores a promise, tries to settle it, passes a settlement on to it, or lets it follow
another one. -/
inductive Deals (track : Tracker σ) (s s' : Machine σ κ) (os : List Occurrence) (p : PromiseId) :
    Prop
  | ignores : s.Ignores s' p → (∀ strict, attemptsThrough os ⟨p, strict⟩ = []) →
      Deals track s s' os p
  | attempts {u : Machine σ κ} {strict : Bool} {result : Except Value Value} : s.Ignores u p →
      u.Made p → s' = u.settle track ⟨p, strict⟩ result →
        (∀ d, attemptsThrough os d = if ⟨p, strict⟩ = d then [result] else []) →
          s.Tries os ⟨p, strict⟩ result → Deals track s s' os p
  | passes {r : ReactionId} {x : Settlement} : s.jobs.head? = some (.react r x) →
      s.PassesTo p r → s.Made p → s' = (s.takeFirst r).settle track ⟨p, false⟩ x.toExcept →
        (∀ strict, attemptsThrough os ⟨p, strict⟩ = []) → Deals track s s' os p
  | adopts {q : PromiseId} : s.jobs.head? = some (.adopt p q) →
      s' = ({ s with jobs := s.jobs.tail } : Machine σ κ).attach track q
        ⟨.passOn, some ⟨p, false⟩⟩ →
          os = [.incident (s.attaching q)] → Deals track s s' os p

theorem deals_settle (hu : s.Ignores u p) {c : Capability} (hc : u.Made c.promise)
    {result : Except Value Value}
    (hos : ∀ d, attemptsThrough os d = if c = d then [result] else [])
    (htries : s.Tries os c result) : s.Deals track (u.settle track c result) os p := by
  by_cases hp : c.promise = p
  · cases hp
    exact .attempts hu hc rfl hos htries
  · exact .ignores (hu.trans (ignores_settle hc hp result))
      fun _ => (hos _).trans (if_neg fun e => hp (by rw [e]))

theorem Stride.deals (h : s.Stride track ledger os s') (hgiven : ∀ v, .given p v ∉ os) :
    s.Deals track s' os p := by
  have hone : ∀ {o c result} {es : List Incident}, o.attempt? = some (c, result) →
      ∀ d, attemptsThrough (o :: es.map .incident) d = if c = d then [result] else [] :=
    fun ho d => attemptsThrough_cons ho _
  have htwo : ∀ {e o c result} {es : List Incident}, o.attempt? = some (c, result) →
      ∀ d, attemptsThrough (.incident e :: o :: es.map .incident) d =
        if c = d then [result] else [] :=
    fun ho d => (attemptsThrough_cons_none rfl _ d).trans (attemptsThrough_cons ho _)
  cases h with
  | beside h _ => exact .ignores (ignores_of_eq h.promises h.jobs h.reactions) fun _ => rfl
  | newPromise => exact .ignores (ignores_newPromise (.inl rfl)) fun _ => rfl
  | newFulfilled v =>
    refine .ignores (ignores_newPromise (.inr ?_)) fun _ => rfl
    rintro rfl
    exact hgiven v List.mem_cons_self
  | attach q _ hplain =>
    exact .ignores (ignores_attach q fun e => hplain.apart (by rw [e])) fun _ => rfl
  | call result hc =>
    exact deals_settle (.refl s p) hc (hone rfl) (.called List.mem_cons_self)
  | answer result hc => exact deals_settle (.refl s p) hc.made (hone rfl) (.entrusted hc)
  | markHandled q => exact .ignores (ignores_markHandled q) fun _ => attemptsThrough_incidents _ _
  | all hne =>
    exact .ignores (ignores_all s hne) fun _ =>
      (attemptsThrough_cons_none rfl _ _).trans (attemptsThrough_incidents _ _)
  | enter hjobs hplain =>
    exact .ignores (ignores_takeFirst hjobs fun hr => (hplain _ hr).apart rfl) fun _ => rfl
  | @passOn r x p' hjobs hr hp =>
    have hnone : ∀ {es : List Incident} strict, attemptsThrough
        (.incident (.ran r x) :: .passed p' x :: es.map .incident) ⟨p, strict⟩ = [] :=
      fun _ => (attemptsThrough_cons_none rfl _ _).trans
        ((attemptsThrough_cons_none rfl _ _).trans (attemptsThrough_incidents _ _))
    by_cases e : p' = p
    · subst e
      exact .passes hjobs hr hp rfl hnone
    · have htake : s.Ignores (s.takeFirst r) p := ignores_takeFirst hjobs fun hr' => e (by
        cases hr.symm.trans hr'
        rfl)
      exact .ignores (htake.trans
        (ignores_settle (s := s.takeFirst r) (c := ⟨p', false⟩) hp e x.toExcept)) hnone
  | collect hjobs hr _ =>
    have htake : s.Ignores (s.takeFirst _) p := ignores_takeFirst hjobs fun hr' => by
      cases hr.symm.trans hr'
    exact .ignores (htake.trans (ignores_of_eq rfl rfl rfl)) fun _ => rfl
  | @complete r v o j k c hjobs hr _ hj hc _ =>
    have htake : s.Ignores (s.takeFirst r) p := ignores_takeFirst hjobs fun hr' => by
      cases hr.symm.trans hr'
    have hfill : s.Ignores ((s.takeFirst r).fill j k v) p :=
      htake.trans (ignores_of_eq rfl rfl rfl)
    exact deals_settle hfill hc (htwo rfl) (.joint hr hj List.mem_cons_self)
  | @giveUp r e j k c hjobs hr hj hc =>
    have htake : s.Ignores (s.takeFirst r) p := ignores_takeFirst hjobs fun hr' => by
      cases hr.symm.trans hr'
    exact deals_settle (u := s.takeFirst r) htake hc (htwo rfl) (.joint hr hj List.mem_cons_self)
  | @adopt p' q hjobs _ =>
    by_cases e : p' = p
    · subst e
      exact .adopts hjobs rfl rfl
    · have htake : s.Ignores { s with jobs := s.jobs.tail } p :=
        ⟨rfl, toFollow_tail hjobs (if_neg e) rfl, fun _ => Iff.rfl⟩
      exact .ignores (htake.trans (ignores_attach q fun h => e (by cases h; rfl))) fun _ => rfl
  | takeJob hjobs =>
    exact .ignores ⟨rfl, toFollow_tail hjobs rfl rfl, fun _ => Iff.rfl⟩ fun _ => rfl
  | queueImport referrer specifier ticket =>
    have hjobs : ∀ job ∈ [Job.finishImport referrer specifier ticket], job.follow? p = none :=
      fun job hjob => by
        rw [List.mem_singleton.1 hjob]
        rfl
    exact .ignores ⟨rfl, toFollow_append rfl hjobs, fun _ => Iff.rfl⟩ fun _ => rfl

theorem Stride.attemptsThrough_untilSettled (h : s.Stride track ledger os s') (p : PromiseId)
    (c : Capability) : attemptsThrough (untilSettled p os) c = attemptsThrough os c := by
  have hall : ∀ before : List Occurrence, (∀ o ∈ before, o.settles p = false) →
      ∀ es : List Incident, os = before ++ es.map .incident →
        attemptsThrough (untilSettled p os) c = attemptsThrough os c := by
    rintro before hbefore es rfl
    exact ModuleGraph.attemptsThrough_untilSettled hbefore es c
  cases h with
  | beside | takeJob | queueImport => rfl
  | newPromise => exact hall [.made _] (by simp [Occurrence.settles]) [] rfl
  | newFulfilled v => exact hall [.given _ v] (by simp [Occurrence.settles]) [_] rfl
  | attach p' => exact hall [] nofun [s.attaching p'] rfl
  | call result => exact hall [.called _ result] (by simp [Occurrence.settles]) _ rfl
  | answer result => exact hall [.answered _ result] (by simp [Occurrence.settles]) _ rfl
  | markHandled => exact hall [] nofun _ rfl
  | all => exact hall [.made _] (by simp [Occurrence.settles]) _ rfl
  | @enter r x => exact hall [] nofun [.ran r x] rfl
  | @passOn r x p' =>
    exact hall [.incident (.ran r x), .passed p' x] (by simp [Occurrence.settles]) _ rfl
  | @collect r v => exact hall [] nofun [.ran r (.fulfilled v)] rfl
  | @complete r v o _ _ c' =>
    exact hall [.incident (.ran r (.fulfilled v)), .answered c' (.ok o)]
      (by simp [Occurrence.settles]) _ rfl
  | @giveUp r e _ _ c' =>
    exact hall [.incident (.ran r (.rejected e)), .answered c' (.error e)]
      (by simp [Occurrence.settles]) _ rfl
  | @adopt _ q => exact hall [] nofun [s.attaching q] rfl

/-! ## Promises that wait for an attempt -/

structure Untried (s : Machine σ κ) (p : PromiseId) : Prop where
  undecided : s.Undecided p
  toFollow : s.toFollow p = []
  passes : ∀ r, ¬s.PassesTo p r

theorem Untried.ignores (h : s.Untried p) (hi : s.Ignores s' p) : s'.Untried p where
  undecided := hi.phase.trans h.undecided
  toFollow := hi.toFollow.trans h.toFollow
  passes r hr := h.passes r ((hi.passes r).1 hr)

theorem untried_of_not_made (hs : s.Orderly owned) (hp : ¬s.Made p) : s.Untried p where
  undecided := by
    rw [Undecided, promise_of_not_made hp]
    rfl
  toFollow := by
    refine List.filterMap_eq_nil_iff.2 fun job hjob => ?_
    cases job with
    | react | finishImport => rfl
    | adopt p' q =>
      refine if_neg ?_
      rintro rfl
      have hclaim : s.Claims owned p' (.follow q) := hjob
      exact hp (hs.claims p' _ hclaim)
  passes r hr := by
    obtain ⟨p', hc, hp'⟩ := (hs.suits r _ hr).passing rfl
    cases hc
    exact hp hp'

theorem Stride.not_given (h : s.Stride track ledger os s') (hp : s.Made p) (v : Value) :
    .given p v ∉ os := by
  intro hmem
  cases h with
  | newFulfilled w =>
    simp only [List.mem_cons, Occurrence.given.injEq, List.not_mem_nil, or_false, reduceCtorEq]
      at hmem
    exact ne_nextPromise hp hmem.1
  | _ => simp [concluding] at hmem

/-- A stride in which the host uses a capability begins with that. -/
theorem Stride.called_untilSettled (h : s.Stride track ledger os s') {c : Capability}
    {result : Except Value Value} (hc : .called c result ∈ os) (p : PromiseId) :
    .called c result ∈ untilSettled p os := by
  cases h with
  | call result' =>
    obtain e | hmem := List.mem_cons.1 hc
    · rw [e]
      exact List.mem_cons_self
    · simp [concluding] at hmem
  | _ => simp [concluding] at hc

end Machine

end ModuleGraph

import ModuleGraph.Proofs.Histories.Joins

/-! # The promise of a joint wait

As long as nobody else settles it, the promise of a joint wait tells what the wait has collected: it
is pending while values are missing and no reason has come, rejected with the first reason, and
fulfilled with an array when all values are there. -/

namespace ModuleGraph

variable {σ κ α : Type}

/-- Until the promise is settled, the host does not use a capability for it. -/
def LeftAlone (os : List Occurrence) (p : PromiseId) : Prop :=
  ∀ c result, .called c result ∈ untilSettled p os → c.promise ≠ p

theorem leftAlone_append {os os' : List Occurrence} {p : PromiseId}
    (h : LeftAlone (os ++ os') p) : LeftAlone os p ∧
      ((∀ x, .incident (.settled p x) ∉ os) → LeftAlone os' p) := by
  simp only [LeftAlone, untilSettled_append, List.mem_append] at h
  refine ⟨fun c result hc => h c result (.inl hc), fun hopen c result hc => ?_⟩
  refine h c result (.inr ?_)
  rwa [if_neg fun hany => ?_]
  obtain ⟨o, ho, hsettles⟩ := List.any_eq_true.1 hany
  obtain ⟨x, rfl⟩ := exists_of_settles hsettles
  exact hopen x ho

namespace Machine

variable {track : Tracker σ} {ledger : σ → α} {owned : σ → PromiseId → Prop}
variable {hosts : Set (Host σ κ)} {rank : Host σ κ → Nat} {h₀ : σ}
variable {s₀ s₁ s s' u : Machine σ κ} {p : PromiseId} {r : ReactionId} {n : Nat}
variable {os os' : List Occurrence} {es : List Incident}

/-- In the course of a journey that starts at `s₁` the promise of a joint wait was fulfilled with an
array. At this time all its reactions had run with values, and the array held them. -/
def Assembles (track : Tracker σ) (ledger : σ → α) (owned : σ → PromiseId → Prop)
    (s₀ s₁ : Machine σ κ) (n : Nat) (os : List Occurrence) (s : Machine σ κ) (o : ObjectId)
    (vs : List Value) : Prop :=
  ∃ before during after w u, os = before ++ during ++ after ∧
    s₁.Journey track ledger owned before w ∧ w.Stride track ledger during u ∧
    u.Journey track ledger owned after s ∧ (w.promise s₀.nextPromise).settlement? = none ∧
    (u.promise s₀.nextPromise).settlement? = some (.fulfilled (.object o)) ∧
    s₀.valuesBy n (before ++ during) = vs.map some ∧ u.object o = .ofList vs

theorem Assembles.snoc {o : ObjectId} {vs : List Value}
    (h : Assembles track ledger owned s₀ s₁ n os s o vs) (hstride : s.Stride track ledger os' s')
    (hs' : s'.Orderly owned) : Assembles track ledger owned s₀ s₁ n (os ++ os') s' o vs := by
  obtain ⟨before, during, after, w, u, rfl, hw, hstep, hu, hrest⟩ := h
  exact ⟨before, during, after ++ os', w, u, List.append_assoc .., hw, hstep,
    hu.snoc hstride hs', hrest⟩

inductive Verdict (track : Tracker σ) (ledger : σ → α) (owned : σ → PromiseId → Prop)
    (s₀ s₁ : Machine σ κ) (n : Nat) (os : List Occurrence) (s : Machine σ κ) : Prop
  | pending : s.Untried s₀.nextPromise → s₀.reasonBy n os = none → none ∈ s₀.valuesBy n os →
      Verdict track ledger owned s₀ s₁ n os s
  | rejected {e : Value} : (s.promise s₀.nextPromise).settlement? = some (.rejected e) →
      s₀.reasonBy n os = some e → Verdict track ledger owned s₀ s₁ n os s
  | fulfilled {o : ObjectId} {vs : List Value} :
      (s.promise s₀.nextPromise).settlement? = some (.fulfilled (.object o)) →
      s₀.valuesBy n os = vs.map some → s₀.reasonBy n os = none →
      Assembles track ledger owned s₀ s₁ n os s o vs → Verdict track ledger owned s₀ s₁ n os s

/-! ## How it is settled -/

theorem objects_settle_object (track : Tracker σ) (u : Machine σ κ) (c : Capability)
    (o : ObjectId) : (u.settle track c (.ok (.object o))).objects = u.objects := by
  have hmark : (u.markResolved c.promise).objects = u.objects := by
    rw [markResolved]
    split <;> rfl
  have hfulfil : ∀ w : Machine σ κ, (w.fulfil c.promise (.object o)).objects = w.objects := by
    intro w
    rw [fulfil]
    split <;> rfl
  rw [settle, resolve]
  split
  · rfl
  · exact (hfulfil _).trans hmark

/-- An undecided promise is fulfilled at once with a value that is not a promise. -/
theorem Undecided.fulfilled (hu : u.Undecided p) (hp : u.Made p) (track : Tracker σ) {v : Value}
    (hv : ∀ q, v ≠ .promise q) :
    ((u.settle track ⟨p, true⟩ (.ok v)).promise p).settlement? = some (.fulfilled v) := by
  have hspent : ¬u.isSpent ⟨p, true⟩ := not_isSpent_of_undecided (c := ⟨p, true⟩) hu
  obtain ⟨rs, b, hs⟩ := pending_of_not_isSpent hspent
  have hconcludes := resolve_concludes track (c := ⟨p, true⟩) hp hs hspent hv
  rw [settle, hconcludes.promise, if_pos rfl, Settlement.settlement?_state]

theorem Undecided.rejected (hu : u.Undecided p) (hp : u.Made p) (track : Tracker σ) (e : Value) :
    ((u.settle track ⟨p, true⟩ (.error e)).promise p).settlement? = some (.rejected e) := by
  have hspent : ¬u.isSpent ⟨p, true⟩ := not_isSpent_of_undecided (c := ⟨p, true⟩) hu
  obtain ⟨rs, b, hs⟩ := pending_of_not_isSpent hspent
  have hconcludes := reject_concludes track (c := ⟨p, true⟩) hp hs hspent e
  rw [settle, hconcludes.promise, if_pos rfl, Settlement.settlement?_state]

theorem Untried.settlement?_eq_none (h : s.Untried p) : (s.promise p).settlement? = none := by
  rw [← PromiseState.phase_snd, show (s.promise p).phase = _ from h.undecided]

theorem Untried.takeFirst (h : s.Untried p) {x : Settlement} {j : JoinId} {k : Nat}
    (hjobs : s.jobs.head? = some (.react r x))
    (hr : s.reaction? r = some ⟨.joined j k, none⟩) : (s.takeFirst r).Untried p :=
  h.ignores (ignores_takeFirst hjobs fun hr' => by cases hr.symm.trans hr')

/-- Only its own reactions and the host try to settle the promise of a joint wait. -/
theorem Untried.stride (huntried : s.Untried s₀.nextPromise) (ht : s₀.Tally n os s)
    (hs : s.Orderly owned) (h : s.Stride track ledger os' s')
    (hruns : ∀ r x k, s.reaction? r = some ⟨.joined s₀.nextJoin k, none⟩ →
      .incident (.ran r x) ∉ os')
    (hcalls : ∀ c result, .called c result ∈ os' → c.promise ≠ s₀.nextPromise) :
    s'.Untried s₀.nextPromise := by
  cases h.deals (p := s₀.nextPromise) (h.not_given ht.made) with
  | ignores hi => exact huntried.ignores hi
  | passes _ hr => exact absurd hr (huntried.passes _)
  | adopts hjobs => cases huntried.toFollow.symm.trans (toFollow_of_head hjobs)
  | attempts _ _ _ _ htries =>
    cases htries with
    | called hc => exact absurd rfl (hcalls _ _ hc)
    | entrusted hp => exact absurd ⟨s₀.nextJoin, ht.listed, by rw [ht.capability]⟩ hp.apart
    | @joint r x i k hr hi hran =>
      have hlisted := hs.joined r i k (by rw [handler?, hr]; rfl)
      obtain rfl := ht.sole i hlisted (by rw [hi])
      exact absurd hran (hruns r x k hr)

theorem eq_map_some_of_countP {l : List (Option Value)} (h : l.countP Option.isNone = 0)
    (v : Value) : l = (l.map (·.getD v)).map some := by
  rw [List.map_map]
  refine (List.map_id l).symm.trans (List.map_congr_left fun x hx => ?_)
  cases x with
  | some w => rfl
  | none => exact absurd (List.countP_eq_zero.1 h none hx) (by simp)

theorem object_completed (track : Tracker σ) (s : Machine σ κ) (r : ReactionId) (j : JoinId)
    (k : Nat) (v : Value) (p : PromiseId) :
    (((s.takeFirst r).fill j k v).settle track ⟨p, true⟩ (.ok (.object ⟨s.objects.size⟩))).object
      ⟨s.objects.size⟩ = .ofList ((s.join j).values.set k v) := by
  have hfill : ((s.takeFirst r).fill j k v).objects =
    s.objects.push (.ofList ((s.join j).values.set k v)) := rfl
  rw [object, objects_settle_object, hfill, Array.getD_eq_getD_getElem?, Array.getElem?_push_size]
  rfl

theorem Tally.missing (ht : s₀.Tally n os s) {k : Nat} {v : Value}
    (hk : (s₀.valuesBy n os)[k]? = some none)
    (hvalues : s₀.valuesBy n os' = (s₀.valuesBy n os).set k (some v)) :
    (s₀.valuesBy n os').countP Option.isNone = (s.join s₀.nextJoin).remaining - 1 := by
  rw [ht.remaining, hvalues]
  exact (countP_set_some hk v).2

/-- A stride of a journey that goes on with the joint wait. -/
theorem Verdict.stride (hv : Verdict track ledger owned s₀ s₁ n os s) (ht : s₀.Tally n os s)
    (ho : s₁.Journey track ledger owned os s) (hs : s.Orderly owned)
    (h : s.Stride track ledger os' s') (hs' : s'.Orderly owned)
    (haccounts : s.Accounts (es ++ incidentsIn os))
    (hcalls : (s.promise s₀.nextPromise).settlement? = none →
      ∀ c result, .called c result ∈ os' → c.promise ≠ s₀.nextPromise) :
    Verdict track ledger owned s₀ s₁ n (os ++ os') s' := by
  have hkeeps : ∀ x, (s.promise s₀.nextPromise).settlement? = some x →
      (s'.promise s₀.nextPromise).settlement? = some x := fun _ =>
    (h.history.becomes _).settlement
  have hprogress := h.progress ht.toWaits haccounts
  cases hv with
  | rejected hp hreason =>
    refine .rejected (hkeeps _ hp) ?_
    rw [reasonBy_append, hreason, Option.some_or]
  | @fulfilled o vs hp hvalues hreason hassembles =>
    -- No value is missing, so none of the reactions is left.
    have hnone : ∀ {k : Nat}, (s₀.valuesBy n os)[k]? ≠ some none := fun {k} hk => by
      rw [hvalues, List.getElem?_map] at hk
      cases hv : vs[k]? <;> rw [hv] at hk <;> cases hk
    cases hprogress with
    | collects _ _ hk | completes _ _ hk | givesUp _ _ hk => exact absurd hk hnone
    | apart _ hvalues' hreason' =>
      exact .fulfilled (hkeeps _ hp) (hvalues'.trans hvalues) (hreason'.trans hreason)
        (hassembles.snoc h hs')
  | pending huntried hreason hmissing =>
    have hopen := huntried.settlement?_eq_none
    cases hprogress with
    | apart _ hvalues hreason' hruns =>
      exact .pending (huntried.stride ht hs h hruns (hcalls hopen)) (hreason'.trans hreason)
        (hvalues ▸ hmissing)
    | @collects k v hjobs hr hk hvalues hreason' hmore hs'' =>
      have huntried' : s'.Untried s₀.nextPromise := by
        rw [hs'']
        exact (huntried.takeFirst hjobs hr).ignores (ignores_of_eq rfl rfl rfl)
      refine .pending huntried' (hreason'.trans hreason) ?_
      rw [← ht.missing hk hvalues] at hmore
      obtain ⟨x, hx, hnone⟩ := List.countP_pos_iff.1 (Nat.pos_of_ne_zero hmore)
      rwa [Option.isNone_iff_eq_none.1 hnone] at hx
    | @completes k v hjobs hr hk hvalues hreason' hlast hs'' =>
      have hfilled : ((s.takeFirst (s₀.reactionAt k)).fill s₀.nextJoin k v).Untried
          s₀.nextPromise := (huntried.takeFirst hjobs hr).ignores (ignores_of_eq rfl rfl rfl)
      have hsettled : (s'.promise s₀.nextPromise).settlement? =
          some (.fulfilled (.object ⟨s.objects.size⟩)) :=
        hs'' ▸ hfilled.undecided.fulfilled ht.made track nofun
      have harray := eq_map_some_of_countP ((ht.missing hk hvalues).trans hlast) .undefined
      have hobject : s'.object ⟨s.objects.size⟩ =
          .ofList ((s₀.valuesBy n (os ++ os')).map (·.getD .undefined)) := by
        rw [hs'', object_completed, hvalues, List.map_set, ← ht.values]
        rfl
      exact .fulfilled hsettled harray (hreason'.trans hreason)
        ⟨os, os', [], s, s', (List.append_nil _).symm, ho, h, .nil, hopen, hsettled, harray,
          hobject⟩
    | @givesUp k e hjobs hr hk hvalues hreason' hs'' =>
      refine .rejected (e := e) ?_ ?_
      · exact hs'' ▸ (huntried.takeFirst hjobs hr).undecided.rejected ht.made track e
      · rw [hreason', hreason, Option.none_or]

/-! ## Runs -/

section Runs

variable {ps : List PromiseId} {es₀ : List Incident}

def upTo (s₀ : Machine σ κ) (ps : List PromiseId) (es₀ : List Incident) : List Incident :=
  es₀ ++ attachingAll (s₀.promises.size + 1) s₀.reactions.size ps

theorem history_upTo (he₀ : (initial h₀).History track ledger es₀ s₀) (hps : ps ≠ []) :
    (initial h₀).History track ledger (s₀.upTo ps es₀) (s₀.all track ps).2 := by
  have hall : s₀.Stride track ledger (.made s₀.nextPromise ::
      (attachingAll (s₀.promises.size + 1) s₀.reactions.size ps).map .incident)
      (s₀.all track ps).2 := .all s₀ hps
  have hincidents := hall.history
  rw [incidentsIn, List.filterMap_cons_none rfl, ← incidentsIn, incidentsIn_map] at hincidents
  exact he₀.append hincidents

theorem mem_attachingAll {made : Nat} :
    ∀ {ps : List PromiseId} (next : Nat), (∀ p ∈ ps, p.index < made) →
      ∀ {k : Nat} (hk : k < ps.length), .attached ps[k] ⟨next + k⟩ ∈ attachingAll made next ps
  | p :: rest, next, h, 0, _ => by
    rw [attachingAll, if_pos (h p List.mem_cons_self)]
    exact List.mem_cons_self
  | p :: rest, next, h, k + 1, hk => by
    have hrest := mem_attachingAll (next + 1) (fun q hq => h q (List.mem_cons_of_mem p hq))
      (Nat.lt_of_succ_lt_succ hk)
    rw [Nat.add_right_comm] at hrest
    exact List.mem_cons_of_mem _ hrest

theorem attached_upTo (hmade : ∀ p ∈ ps, s₀.Made p) {k : Nat} (hk : k < ps.length) :
    .attached ps[k] (s₀.reactionAt k) ∈ s₀.upTo ps es₀ :=
  List.mem_append_right _ (mem_attachingAll _ (fun p hp => Nat.lt_succ_of_lt (hmade p hp)) hk)

/-- The reactions of a joint wait run after it was made. -/
theorem ran_after (he₀ : (initial h₀).History track ledger es₀ s₀) {k : Nat} {x : Settlement}
    (hran : (s₀.reactionAt k, x) ∈ runsIn (s₀.upTo ps es₀ ++ incidentsIn os)) :
    (s₀.reactionAt k, x) ∈ runsIn (incidentsIn os) := by
  rw [upTo, runsIn_append, runsIn_append, runsIn_attachingAll, List.append_nil] at hran
  refine (List.mem_append.1 hran).resolve_left fun hbefore => ?_
  obtain ⟨p, hp⟩ := he₀.accounts.known _ x (List.mem_append_left _ hbefore)
  exact absurd (he₀.accounts.fresh p _ hp).2 (Nat.not_lt.2 (Nat.le_add_right _ _))

variable (hs₀ : s₀.Orderly owned) (hs₁ : (s₀.all track ps).2.Orderly owned)
variable (he₀ : (initial h₀).History track ledger es₀ s₀) (hps : ps ≠ [])
variable (hmade : ∀ p ∈ ps, s₀.Made p)
variable (ho : (s₀.all track ps).2.Journey track ledger owned os s)
include hs₀ hs₁ he₀ hps hmade ho

theorem Journey.tally : s₀.Tally ps.length os s := by
  induction ho with
  | nil => exact tally_all hs₀ hps hs₁
  | @snoc os os' s s' ho hstride _ ih =>
    have haccounts := ((history_upTo he₀ hps).append ho.history).accounts
    exact ih.stride hstride haccounts fun k hk =>
      (haccounts.fresh _ _ (List.mem_append_left _ (attached_upTo hmade hk))).2

theorem Journey.verdict (halone : LeftAlone os s₀.nextPromise) :
    Verdict track ledger owned s₀ (s₀.all track ps).2 ps.length os s := by
  induction ho with
  | nil =>
    have huntried := untried_of_not_made hs₀ (not_made_nextPromise s₀)
    refine .pending (huntried.ignores (ignores_all s₀ hps)) rfl ?_
    rw [valuesBy_nil]
    exact List.mem_replicate.2 ⟨by rwa [Ne, List.length_eq_zero_iff], rfl⟩
  | @snoc os os' s s' ho hstride hs' ih =>
    obtain ⟨hbefore, hafter⟩ := leftAlone_append halone
    have hhistory := (history_upTo he₀ hps).append ho.history
    refine (ih hbefore).stride (ho.tally hs₀ hs₁ he₀ hps hmade) ho (ho.orderly hs₁) hstride hs'
      hhistory.accounts fun hnone c result hc => ?_
    refine hafter (fun x hx => ?_) c result (hstride.called_untilSettled hc _)
    have hsettled := (hhistory.settlesOnce.recorded s₀.nextPromise x).2
      (List.mem_append_right _ (mem_incidentsIn.2 hx))
    cases hnone.symm.trans hsettled

/-- A joint wait for promises, and its own promise, after these occurrences. -/
structure Aggregates (track : Tracker σ) (ledger : σ → α) (owned : σ → PromiseId → Prop)
    (s₀ : Machine σ κ) (ps : List PromiseId) (os : List Occurrence) (s : Machine σ κ) : Prop where
  /-- So many reactions have not run with a value. -/
  remaining : (s.join s₀.nextJoin).remaining = (s₀.valuesBy ps.length os).countP Option.isNone
  /-- The values that they have run with are stored, each in its place. -/
  values : (s.join s₀.nextJoin).values = (s₀.valuesBy ps.length os).map (·.getD .undefined)
  /-- There is a place for every value. -/
  range : ∀ r (k : Nat) c, s.reaction? r = some ⟨.joined s₀.nextJoin k, c⟩ →
    k < (s.join s₀.nextJoin).values.length
  /-- When a value is to come, one is missing. -/
  counts : ∀ r v k c, .react r (.fulfilled v) ∈ s.jobs →
    s.reaction? r = some ⟨.joined s₀.nextJoin k, c⟩ → 0 < (s.join s₀.nextJoin).remaining
  /-- It is the value of the promise in the same place. -/
  value : ∀ (k : Nat) v, (s₀.valuesBy ps.length os)[k]? = some (some v) →
    ∃ p, ps[k]? = some p ∧ (s.promise p).settlement? = some (.fulfilled v)
  reason : ∀ e, s₀.reasonBy ps.length os = some e →
    ∃ p ∈ ps, (s.promise p).settlement? = some (.rejected e)
  /-- The promise is fulfilled when all values are there, with an array of them. -/
  fulfils : LeftAlone os s₀.nextPromise →
    ∀ v, (s.promise s₀.nextPromise).settlement? = some (.fulfilled v) →
      ∃ o vs, v = .object o ∧ s₀.valuesBy ps.length os = vs.map some ∧
        Assembles track ledger owned s₀ (s₀.all track ps).2 ps.length os s o vs
  /-- It is rejected when the first reaction has run with a reason. -/
  rejects : LeftAlone os s₀.nextPromise →
    ∀ e, (s.promise s₀.nextPromise).settlement? = some (.rejected e) ↔
      s₀.reasonBy ps.length os = some e
  /-- When no job is queued, nothing is left to do. -/
  idle : LeftAlone os s₀.nextPromise → s.jobs = [] →
    ((∃ e, (s.promise s₀.nextPromise).settlement? = some (.rejected e)) ↔
      ∃ p ∈ ps, ∃ e, (s.promise p).settlement? = some (.rejected e)) ∧
    ((∀ p ∈ ps, ∃ v, (s.promise p).settlement? = some (.fulfilled v)) →
      ∃ v, (s.promise s₀.nextPromise).settlement? = some (.fulfilled v))

omit hs₀ hs₁ in
/-- A reaction of the joint wait has run with what the promise in its place was settled with. -/
theorem Journey.settlement_of_ran {k : Nat} {x : Settlement} (hk : k < ps.length)
    (hran : (s₀.reactionAt k, x) ∈ runsIn (incidentsIn os)) :
    (s.promise ps[k]).settlement? = some x := by
  have haccounts := ((history_upTo he₀ hps).append ho.history).accounts
  refine haccounts.result _ _ x (List.mem_append_left _ (attached_upTo hmade hk)) ?_
  rw [runsIn_append]
  exact List.mem_append_left _ (List.mem_append_right _ hran)

omit hs₀ hs₁ in
/-- When no job is queued, the reaction for a settled promise has run. -/
theorem Journey.ran_of_idle (hjobs : s.jobs = []) {k : Nat} {x : Settlement} (hk : k < ps.length)
    (hx : (s.promise ps[k]).settlement? = some x) :
    (s₀.reactionAt k, x) ∈ runsIn (incidentsIn os) := by
  have haccounts := ((history_upTo he₀ hps).append ho.history).accounts
  have honce := haccounts.idle hjobs (List.mem_append_left _ (attached_upTo hmade hk)) hx
  have hmem := List.mem_singleton_self (s₀.reactionAt k, x)
  rw [← honce] at hmem
  exact ran_after he₀ (List.mem_filter.1 hmem).1

theorem Journey.rejects (halone : LeftAlone os s₀.nextPromise) (e : Value) :
    (s.promise s₀.nextPromise).settlement? = some (.rejected e) ↔
      s₀.reasonBy ps.length os = some e := by
  cases ho.verdict hs₀ hs₁ he₀ hps hmade halone with
  | pending huntried hnone =>
    rw [huntried.settlement?_eq_none, hnone]
    exact iff_of_false nofun nofun
  | rejected hp hreason =>
    rw [hp, hreason]
    simp
  | fulfilled hp _ hnone =>
    rw [hp, hnone]
    exact iff_of_false (by simp) nofun

theorem Journey.fulfils (halone : LeftAlone os s₀.nextPromise) {v : Value}
    (hv : (s.promise s₀.nextPromise).settlement? = some (.fulfilled v)) :
    ∃ o vs, v = .object o ∧ s₀.valuesBy ps.length os = vs.map some ∧
      Assembles track ledger owned s₀ (s₀.all track ps).2 ps.length os s o vs := by
  cases ho.verdict hs₀ hs₁ he₀ hps hmade halone with
  | pending huntried =>
    cases huntried.settlement?_eq_none.symm.trans hv
  | rejected hp => cases hp.symm.trans hv
  | fulfilled hp hvalues _ hassembles =>
    cases hp.symm.trans hv
    exact ⟨_, _, rfl, hvalues, hassembles⟩

theorem Journey.idle (halone : LeftAlone os s₀.nextPromise) (hjobs : s.jobs = []) :
    ((∃ e, (s.promise s₀.nextPromise).settlement? = some (.rejected e)) ↔
      ∃ p ∈ ps, ∃ e, (s.promise p).settlement? = some (.rejected e)) ∧
    ((∀ p ∈ ps, ∃ v, (s.promise p).settlement? = some (.fulfilled v)) →
      ∃ v, (s.promise s₀.nextPromise).settlement? = some (.fulfilled v)) := by
  have hrejects : (∃ e, (s.promise s₀.nextPromise).settlement? = some (.rejected e)) ↔
      ∃ p ∈ ps, ∃ e, (s.promise p).settlement? = some (.rejected e) := by
    simp only [ho.rejects hs₀ hs₁ he₀ hps hmade halone]
    constructor
    · rintro ⟨e, he⟩
      obtain ⟨k, hk, hran⟩ := mem_runsIn_of_firstReason he
      exact ⟨ps[k], List.getElem_mem hk, e, ho.settlement_of_ran he₀ hps hmade hk hran⟩
    · rintro ⟨p, hp, e, he⟩
      obtain ⟨k, hk, rfl⟩ := List.getElem_of_mem hp
      exact Option.ne_none_iff_exists'.1
        (firstReason_ne_none hk (ho.ran_of_idle he₀ hps hmade hjobs hk he))
  refine ⟨hrejects, fun hfulfilled => ?_⟩
  cases ho.verdict hs₀ hs₁ he₀ hps hmade halone with
  | fulfilled hp => exact ⟨_, hp⟩
  | rejected hp =>
    obtain ⟨p, hp, e, he⟩ := hrejects.1 ⟨_, hp⟩
    obtain ⟨v, hv⟩ := hfulfilled p hp
    cases he.symm.trans hv
  | pending _ _ hmissing =>
    -- A value that is missing would be that of a promise whose reaction has run.
    obtain ⟨k, hk, hnone⟩ := List.mem_map.1 hmissing
    have hlt := List.mem_range.1 hk
    obtain ⟨v, hv⟩ := hfulfilled ps[k] (List.getElem_mem hlt)
    exact absurd hnone (valueRun_ne_none (ho.ran_of_idle he₀ hps hmade hjobs hlt hv))

theorem Journey.aggregates : s₀.Aggregates track ledger owned ps os s := by
  have ht := ho.tally hs₀ hs₁ he₀ hps hmade
  have haccounts := ((history_upTo he₀ hps).append ho.history).accounts
  refine
    { remaining := ht.remaining
      values := ht.values
      range := fun r k c hr => ?_
      counts := fun r v k c hjob hr => ?_
      value := fun k v hv => ?_
      reason := fun e he => ?_
      fulfils := fun halone v => ho.fulfils hs₀ hs₁ he₀ hps hmade halone
      rejects := ho.rejects hs₀ hs₁ he₀ hps hmade
      idle := ho.idle hs₀ hs₁ he₀ hps hmade }
  · rw [ht.values, valuesBy]
    simpa using (ht.range r k c hr).1
  · obtain ⟨hk, rfl⟩ := ht.range r k c hr
    have hnone : valueRun os (s₀.reactionAt k) = none := valueRun_eq_none fun x hx => by
      refine haccounts.not_mem_runsIn (y := x) (mem_queue.2 hjob) ?_
      rw [runsIn_append]
      exact List.mem_append_right _ hx
    rw [ht.remaining]
    refine (countP_set_some (k := k) ?_ v).1
    rw [getElem?_valuesBy s₀ os hk, hnone]
  · obtain ⟨hk, hv⟩ := List.getElem?_eq_some_iff.1 hv
    rw [valuesBy, List.length_map, List.length_range] at hk
    simp only [valuesBy, List.getElem_map, List.getElem_range] at hv
    exact ⟨ps[k], List.getElem?_eq_getElem hk,
      ho.settlement_of_ran he₀ hps hmade hk (mem_runsIn_of_valueRun hv)⟩
  · obtain ⟨k, hk, hran⟩ := mem_runsIn_of_firstReason he
    exact ⟨ps[k], List.getElem_mem hk, ho.settlement_of_ran he₀ hps hmade hk hran⟩

end Runs

/-- Joint waits collect the values of their promises, whatever happens meanwhile and in whatever
order. What operations do is a journey, and this holds at each machine of a journey that starts when
a joint wait was made for promises that there were. -/
theorem joint_waits_aggregate (h : Operates hosts rank track ledger owned)
    (hh : ∀ p, ¬owned h₀ p) :
    (∀ s₀ ps s, s₀.Arises hosts track ledger owned h₀ →
      (s₀.all track ps).2.Uses hosts track ledger owned s →
        ∃ os₀ os, (initial h₀).Journey track ledger owned os₀ s₀ ∧
          (s₀.all track ps).2.Journey track ledger owned os s) ∧
    ∀ os₀ s₀ ps os s, (initial h₀ : Machine σ κ).Journey track ledger owned os₀ s₀ → ps ≠ [] →
      (∀ p ∈ ps, s₀.Made p) → (s₀.all track ps).2.Journey track ledger owned os s →
        (s₀.all track ps).1 = s₀.nextPromise ∧ s₀.Aggregates track ledger owned ps os s := by
  refine ⟨fun s₀ ps s hs₀ hs => ?_, fun os₀ s₀ ps os s ho₀ hps hmade ho => ⟨?_, ?_⟩⟩
  · have hs₁ : (s₀.all track ps).2.Arises hosts track ledger owned h₀ :=
      ⟨hs₀.1, hs₀.2.tail (.all s₀ ps)⟩
    obtain ⟨os₀, _, ho₀, -⟩ := h.journey hs₀ .refl
    obtain ⟨_, os, -, ho⟩ := h.journey hs₁ hs
    exact ⟨os₀, os, ho₀, ho⟩
  · rw [all]
    dsimp only
    rw [if_neg (by simpa using hps)]
    rfl
  · have hs₀ := ho₀.orderly (orderly_initial hh)
    have hall : s₀.Travels track ledger owned (s₀.all track ps).2 := travels_all h.discreet s₀ ps
    have hs₁ := (hall hs₀).1
    exact ho.aggregates hs₀ hs₁ ho₀.history hps hmade

end Machine

namespace Recorder

open Machine

def given : Machine Told Unit := ((initial []).newFulfilled .undefined).2

def awaitedTwice : Machine Told Unit := (given.all host.track [⟨0⟩, ⟨0⟩]).2

def collected : Machine Told Unit :=
  (awaitedTwice.takeFirst ⟨0⟩).joinFulfilled host.track ⟨0⟩ 0 .undefined

def gathered : Machine Told Unit :=
  (collected.takeFirst ⟨1⟩).joinFulfilled host.track ⟨0⟩ 1 .undefined

/-- What occurs until there is an array. -/
def gathering : List Occurrence :=
  [.incident (.ran ⟨0⟩ (.fulfilled .undefined)), .incident (.ran ⟨1⟩ (.fulfilled .undefined)),
    .answered ⟨⟨1⟩, true⟩ (.ok (.object ⟨0⟩)),
    .incident (.settled ⟨1⟩ (.fulfilled (.object ⟨0⟩)))]

theorem orderly_given : given.Orderly owned := by
  have hgiven : Travels host.track id owned (initial [] : Machine Told Unit) given :=
    travels_newPromise _ trivial
  exact (hgiven (orderly_initial fun _ => id)).1

theorem journey_given : (initial []).Journey host.track id owned
    [.given ⟨0⟩ .undefined, .incident (.settled ⟨0⟩ (.fulfilled .undefined))] given :=
  .single (.newFulfilled _ .undefined) orderly_given

theorem journey_gathered : awaitedTwice.Journey host.track id owned gathering gathered := by
  have hawaited : given.Travels host.track id owned awaitedTwice :=
    travels_all operates.discreet given [⟨0⟩, ⟨0⟩]
  have hcollected : awaitedTwice.Travels host.track id owned collected :=
    travels_joinFulfilled operates.discreet rfl rfl
  have hgathered : collected.Travels host.track id owned gathered :=
    travels_joinFulfilled operates.discreet rfl rfl
  have hs₁ := (hawaited orderly_given).1
  have hs₂ := (hcollected hs₁).1
  have hs₃ := (hgathered hs₂).1
  have hcollect : awaitedTwice.Stride host.track id
      [.incident (.ran ⟨0⟩ (.fulfilled .undefined))] collected :=
    .collect (s := awaitedTwice) (j := ⟨0⟩) (k := 0) rfl rfl (by decide)
  have hcomplete : collected.Stride host.track id
      [.incident (.ran ⟨1⟩ (.fulfilled .undefined)), .answered ⟨⟨1⟩, true⟩ (.ok (.object ⟨0⟩)),
        .incident (.settled ⟨1⟩ (.fulfilled (.object ⟨0⟩)))] gathered :=
    .complete (s := collected) (j := ⟨0⟩) (k := 1) rfl rfl rfl rfl Nat.one_lt_two rfl
  exact (Journey.single hcollect hs₂).snoc hcomplete hs₃

def hoped : Machine Told Unit := (initial []).newCapability.2

/-- The promise of a joint wait for it is fulfilled by somebody else. -/
def preempted : Machine Told Unit :=
  (hoped.all host.track [⟨0⟩]).2.settle host.track ⟨⟨1⟩, true⟩ (.ok .undefined)

theorem arises_hoped : hoped.Arises hosts host.track id owned [] :=
  ⟨fun _ => id, .single (.newCapability _)⟩

theorem uses_preempted :
    (hoped.all host.track [⟨0⟩]).2.Uses hosts host.track id owned preempted :=
  .single (.settle (hoped.all host.track [⟨0⟩]).2 (c := ⟨⟨1⟩, true⟩) _ Nat.one_lt_two)

end Recorder

open Recorder in
/-- Somebody waits for a fulfilled promise twice, and gets an array of its value. -/
theorem joint_waits_aggregate_twice :
    Operates hosts (fun _ => 0) host.track id owned ∧ (∀ p, ¬owned [] p) ∧
    (Machine.initial []).Journey host.track id owned
      [.given ⟨0⟩ .undefined, .incident (.settled ⟨0⟩ (.fulfilled .undefined))] given ∧
    [⟨0⟩, ⟨0⟩] ≠ ([] : List PromiseId) ∧ (∀ p ∈ [⟨0⟩, ⟨0⟩], given.Made p) ∧
    (given.all host.track [⟨0⟩, ⟨0⟩]).2.Journey host.track id owned gathering gathered ∧
    LeftAlone gathering ⟨1⟩ ∧ gathered.jobs = [] ∧
    (gathered.promise ⟨1⟩).settlement? = some (.fulfilled (.object ⟨0⟩)) ∧
    gathered.object ⟨0⟩ = .ofList [.undefined, .undefined] ∧
    (given.all host.track [⟨0⟩, ⟨0⟩]).1 = ⟨1⟩ ∧
    given.Aggregates host.track id owned [⟨0⟩, ⟨0⟩] gathering gathered := by
  have hmade : ∀ p ∈ [(⟨0⟩ : PromiseId), ⟨0⟩], given.Made p := by
    intro p hp
    obtain rfl : p = ⟨0⟩ := by simpa using hp
    exact Nat.zero_lt_one
  have hnobody : ∀ p, ¬owned [] p := fun _ => id
  obtain ⟨hfirst, haggregates⟩ := (Machine.joint_waits_aggregate operates hnobody).2
    _ given _ gathering gathered journey_given (by simp) hmade journey_gathered
  exact ⟨operates, hnobody, journey_given, by simp, hmade, journey_gathered,
    by simp [LeftAlone, untilSettled, gathering, Occurrence.settles], rfl, rfl, rfl, hfirst,
    haggregates⟩

open Recorder in
/-- Somebody else may settle the promise of a joint wait, who makes a capability for it. Then it is
fulfilled though the promise waited for is pending. -/
theorem joint_wait_preempted :
    hoped.Arises hosts host.track id owned [] ∧ hoped.Made ⟨0⟩ ∧
    (hoped.all host.track [⟨0⟩]).1 = ⟨1⟩ ∧
    (hoped.all host.track [⟨0⟩]).2.Uses hosts host.track id owned preempted ∧
    preempted.jobs = [] ∧
    (preempted.promise ⟨1⟩).settlement? = some (.fulfilled .undefined) ∧
    (preempted.promise ⟨0⟩).settlement? = none :=
  ⟨arises_hoped, Nat.one_pos, rfl, uses_preempted, rfl, rfl, rfl⟩

end ModuleGraph

import ModuleGraph.Proofs.Runs.Repeats

/-! # How a component shares its error

A module fails while it waits, and then the root of its cycle is known, or at the end of an
evaluation, which fails all modules that are open with one value. So if two modules of a component
have failed without a root and with different values, then they did so in different evaluations, and
between these the second one was still linked. -/

namespace ModuleGraph

open Relation

variable {σ κ : Type} {journal : σ → Journal} {owner : κ → ModuleId} {reserved : Set PromiseId}
variable {hosts : Set (Host σ κ)}

namespace Machine

variable {s s₀ s₁ s' : Machine σ κ} {m n x y q : ModuleId} {p : PromiseId} {e e' : Value}
variable {resolver : ModuleId → String → Option ModuleId}
variable {known : Finding → Prop} {spare : PromiseId → Prop}

/-! ## Steps with one evaluation at most -/

/-- A step in which at most one evaluation fails modules. -/
structure Brief (journal : σ → Journal) (owner : κ → ModuleId) (reserved : Set PromiseId)
    (hosts : Set (Host σ κ)) (s s' : Machine σ κ) : Prop where
  step : Step journal reserved hosts s s'
  bearing : ∀ known, s.Resting journal owner reserved known (fun _ => False) →
    s'.Bearing journal owner reserved known fun _ => False

theorem Move.brief (hc : Conduct journal owner reserved hosts)
    (h : Move journal reserved hosts s s') : Brief journal owner reserved hosts s s' :=
  ⟨.move h, fun _ hs => hs.move hc h⟩

/-- The job of a callback is entered, the callback makes its moves, and then the capability of the
reaction is settled. -/
theorem callback_brief {host : Host σ κ} (hc : Conduct journal owner reserved hosts)
    (hh : host ∈ hosts) (h : s.Resting journal owner reserved known fun _ => False)
    (hk : ∀ f, known f → f.IsLasting) {r : ReactionId} {y : Settlement} {code : κ}
    (hjobs : s.jobs.head? = some (.react r y)) (hr : s.handler? r = some (.callback code))
    {result : Except Value Bool} (hrun : runNextJob host s = some (result, s')) :
    ReflTransGen (Brief journal owner reserved hosts) s s' := by
  obtain ⟨rest, hrest⟩ := List.head?_eq_some_iff.1 hjobs
  obtain ⟨reaction, hreaction, hhandler⟩ := Option.map_eq_some_iff.1 hr
  obtain ⟨result₁, hjob⟩ := runNextJob_job hrest hrun
  obtain ⟨result₂, s₁, hcall, rfl⟩ := runJob_react hrest hreaction hjob
  have h₁ := react_ends hc hh h hrest hreaction (fun _ _ => hk) hcall
  rw [hhandler] at hcall
  have henter : Brief journal owner reserved hosts s (s.takeFirst r) :=
    ⟨.enter s hjobs hr, fun _ hs => (hs.enter hjobs hr).bearing⟩
  have hmoves : ReflTransGen (Brief journal owner reserved hosts) (s.takeFirst r) s₁ :=
    ReflTransGen.mono (fun _ _ => Move.brief hc) _ _ (hc.call host hh hcall)
  cases hcap : reaction.capability with
  | none => exact .head henter hmoves
  | some c =>
    rw [hcap] at h₁
    exact .head henter (hmoves.tail (Move.brief hc (.call (.settle s₁ result₂ hh
      (h₁.coherent.maySettle (.inr (.inr ⟨c, rfl, rfl⟩)))))))

/-- Every step of a run consists of brief ones. -/
theorem Step.brief (hc : Conduct journal owner reserved hosts)
    (h : s.Resting journal owner reserved known fun _ => False) (hk : ∀ f, known f → f.IsLasting)
    (hstep : Step journal reserved hosts s s') :
    ReflTransGen (Brief journal owner reserved hosts) s s' := by
  cases id hstep with
  | move hmove => exact .single (Move.brief hc hmove)
  | enter hjobs hr => exact .single ⟨hstep, fun _ hs => (hs.enter hjobs hr).bearing⟩
  | enterImport hjobs => exact .single ⟨hstep, fun _ hs => (hs.enterImport hjobs).bearing⟩
  | @job host _ _ hh hrun =>
    by_cases hcallback : ∃ r y code, s.jobs.head? = some (.react r y) ∧
        s.handler? r = some (.callback code)
    · obtain ⟨r, y, code, hjobs, hr⟩ := hcallback
      exact callback_brief hc hh h hk hjobs hr hrun
    · exact .single ⟨hstep, fun _ hs => runNextJob_ends hc hh hs
        (fun r y code hjobs hr => (hcallback ⟨r, y, code, hjobs, hr⟩).elim) hrun⟩

/-! ## Modules that fail apart -/

def Parted (journal : σ → Journal) (reserved : Set PromiseId) (hosts : Set (Host σ κ))
    (s : Machine σ κ) (m : ModuleId) (e : Value) (n : ModuleId) : Prop :=
  ∃ s₀, Reachable journal reserved hosts s₀ ∧ ReflTransGen (Step journal reserved hosts) s₀ s ∧
    (s₀.cyclic m).error = some e ∧ (s₀.cyclic n).error = none

theorem Parted.step (h : s.Parted journal reserved hosts m e n)
    (hstep : Step journal reserved hosts s s') : s'.Parted journal reserved hosts m e n := by
  obtain ⟨s₀, hr, hs, hm, hn⟩ := h
  exact ⟨s₀, hr, hs.tail hstep, hm, hn⟩

def Accords (journal : σ → Journal) (reserved : Set PromiseId) (hosts : Set (Host σ κ))
    (s : Machine σ κ) : Prop :=
  ∀ m n e e', (s.cyclic m).error = some e → (s.cyclic n).error = some e' →
    (s.cyclic m).root = none → (s.cyclic n).root = none →
      e' = e ∨ s.Parted journal reserved hosts m e n ∨ s.Parted journal reserved hosts n e' m

theorem Brief.accords (hc : Conduct journal owner reserved hosts)
    (hs : Reachable journal reserved hosts s) (h : Brief journal owner reserved hosts s s')
    (ha : s.Accords journal reserved hosts) : s'.Accords journal reserved hosts := by
  intro m n e e' hm hn hmr hnr
  obtain ⟨v, hv⟩ := h.bearing (s.Shows journal) ((hs.resting hc).recall fun _ => id)
  have hkept : ∀ f, s.Shows journal f → f.Bears v → s'.Shows journal f := fun f hf hb =>
    hv.coherent.known f ⟨hf, hb⟩
  have hfailed : ∀ {x d d'}, (s'.cyclic x).error = some d → (s.cyclic x).error = some d' →
      d' = d := fun {x d d'} hd hd' =>
    Option.some.inj ((hkept (.failed x d') hd' trivial).symm.trans hd)
  have hroot : ∀ {x}, (s'.cyclic x).root = none → (s.cyclic x).root = none := fun {x} hx => by
    by_contra hne
    obtain ⟨q, hq⟩ := Option.ne_none_iff_exists'.1 hne
    cases (hkept (.rooted x q) hq trivial).symm.trans hx
  have hnew : ∀ {x d}, (s'.cyclic x).error = some d → (s'.cyclic x).root = none →
      (s.cyclic x).error = none → d = v := fun {x d} hd hr hn =>
    (hkept (.spared x v) (fun _ he => nomatch hn.symm.trans he) rfl d hd).resolve_left fun hne =>
      hne hr
  cases hm₀ : (s.cyclic m).error with
  | some d =>
    obtain rfl := hfailed hm hm₀
    cases hn₀ : (s.cyclic n).error with
    | some d' =>
      obtain rfl := hfailed hn hn₀
      exact (ha m n d d' hm₀ hn₀ (hroot hmr) (hroot hnr)).imp id
        (Or.imp (·.step h.step) (·.step h.step))
    | none => exact .inr (.inl ⟨s, hs, .single h.step, hm₀, hn₀⟩)
  | none =>
    cases hn₀ : (s.cyclic n).error with
    | some d' =>
      obtain rfl := hfailed hn hn₀
      exact .inr (.inr ⟨s, hs, .single h.step, hn₀, hm₀⟩)
    | none => exact .inl ((hnew hn hnr hn₀).trans (hnew hm hmr hm₀).symm)

theorem Reachable.accords (hc : Conduct journal owner reserved hosts)
    (h : Reachable journal reserved hosts s) : s.Accords journal reserved hosts := by
  obtain ⟨h₀, hj, hsteps⟩ := h
  induction hsteps with
  | refl =>
    intro m n e e' hm
    cases ((untouched_initial h₀ m).fresh.1).symm.trans hm
  | @tail s s' hs hstep ih =>
    have hreach : Reachable journal reserved hosts s := ⟨h₀, hj, hs⟩
    have hbrief := hstep.brief hc (hreach.resting hc) fun _ hf => hf.elim
    -- Brief steps lead through machines that the run reaches.
    suffices ∀ {t}, ReflTransGen (Brief journal owner reserved hosts) s t →
        Reachable journal reserved hosts t ∧ t.Accords journal reserved hosts from (this hbrief).2
    intro t ht
    induction ht with
    | refl => exact ⟨hreach, ih⟩
    | tail _ hb ih => exact ⟨ih.1.steps (.single hb.step), hb.accords hc ih.1 ih.2⟩

/-! ## Linked modules of a component -/

/-- What a linked module reaches in a later machine is linked. -/
theorem Resting.isLinked_of_resolves (h : s₀.Resting journal owner reserved known spare)
    (hfixed : ∀ m r n, Entry.resolved m r n ∈ journal s₀.host → resolver m r = some n)
    (hrequested : ∀ x, s₀.Has x → s.requested x = s₀.requested x) (hx : (s₀.status x).IsLinked)
    (hxy : ReflTransGen (s.Resolves resolver) x y) : (s₀.status y).IsLinked := by
  induction hxy with
  | refl => exact hx
  | @tail y z _ hz ih =>
    obtain ⟨r, hr, hz⟩ := hz
    rw [hrequested y (has_of_isLinked ih)] at hr
    obtain ⟨n, hn, hl⟩ :=
      (h.coherent.linked id (stable_of_fixed hfixed)).answered y ih r hr
    rwa [← Option.some.inj ((hfixed y r n hn).symm.trans hz)]

/-- While one module of a component had failed and another one, which has no root later, had not,
the latter was linked. -/
theorem Parted.linked (hc : Conduct journal owner reserved hosts)
    (hfixed : ∀ m r n, Entry.resolved m r n ∈ journal s.host → resolver m r = some n)
    (h : s.Parted journal reserved hosts m e n) (hn : (s.cyclic n).root = none)
    (hmn : s.Connected resolver m n) :
    ∃ s₀, Reachable journal reserved hosts s₀ ∧ ReflTransGen (Step journal reserved hosts) s₀ s ∧
      s₀.evaluationError? m = some e ∧ s₀.status n = .linked := by
  obtain ⟨s₀, hr, hsteps, hm, hn₀⟩ := h
  have hrest := hr.resting hc
  have hfixed₀ : ∀ m r n, Entry.resolved m r n ∈ journal s₀.host → resolver m r = some n :=
    fun m r n he => hfixed m r n (hr.shows (f := .noted _) hc hsteps (fun _ => trivial) he)
  have hrequested : ∀ x, s₀.Has x → s.requested x = s₀.requested x := fun x hx => by
    rw [requested_eq, requested_eq]
    exact (hr.shows (f := .made x _) hc hsteps (fun _ => trivial) ⟨hx, rfl⟩).2
  have hroot : (s₀.cyclic n).root = none := by
    by_contra hne
    obtain ⟨q, hq⟩ := Option.ne_none_iff_exists'.1 hne
    cases (hr.shows (f := .rooted n q) hc hsteps (fun _ => trivial) hq).symm.trans hn
  have hmi : ¬(s₀.cyclic m).status.IsIdle := fun hi => by
    cases ((hrest.sound.shaped m).idle hi).1.1.symm.trans hm
  have hl := hrest.isLinked_of_resolves hfixed₀ hrequested (isLinked_of_awake hmi) hmn.1
  -- A leaf requests nothing, so it is in no component with another module.
  have hcyc : s₀.isCyclic n := by
    by_contra hcyc
    obtain e | ⟨z, ⟨r, hz, -⟩, -⟩ := ReflTransGen.cases_head hmn.2
    · rw [e, hm] at hn₀
      cases hn₀
    · rw [hrequested n (has_of_isLinked hl),
        requested_of_leaf (Bool.eq_false_of_not_eq_true hcyc)] at hz
      cases hz
  refine ⟨s₀, hr, hsteps, by rw [evaluationError?_of_isCyclic (isCyclic_of_awake hmi), hm], ?_⟩
  rw [status_of_isCyclic hcyc] at hl ⊢
  cases hst : (s₀.cyclic n).status with
  | unlinked | linking => exact (hst ▸ hl).elim
  | linked => rfl
  | evaluating => exact nomatch (hrest.sound.open_iff n).1 hst
  | evaluatingAsync => exact ((hrest.sound.shaped n).waiting hst).2.1 hroot |>.elim
  | evaluated => exact ((hrest.sound.shaped n).complete hst hn₀).1 hroot |>.elim

/-! ## Promises of one component -/

/-- A promise that an evaluation of a linked module has returned earlier in a run. -/
def Obtained (journal : σ → Journal) (reserved : Set PromiseId) (hosts : Set (Host σ κ))
    (s : Machine σ κ) (m : ModuleId) (p : PromiseId) : Prop :=
  ∃ s₀ s₁, ∃ host ∈ hosts, Reachable journal reserved hosts s₀ ∧ (s₀.status m).IsLinked ∧
    host.evaluate m s₀ = some (p, s₁) ∧ ReflTransGen (Step journal reserved hosts) s₁ s

theorem Obtained.steps (h : s.Obtained journal reserved hosts m p)
    (hsteps : ReflTransGen (Step journal reserved hosts) s s') :
    s'.Obtained journal reserved hosts m p := by
  obtain ⟨s₀, s₁, host, hh, hr, hl, heval, hs⟩ := h
  exact ⟨s₀, s₁, host, hh, hr, hl, heval, hs.trans hsteps⟩

theorem Obtained.reachable (h : s.Obtained journal reserved hosts m p) :
    Reachable journal reserved hosts s := by
  obtain ⟨s₀, s₁, host, hh, hr, hl, heval, hsteps⟩ := h
  exact (hr.move (.evaluate hh (has_of_isLinked hl) heval)).steps hsteps

theorem Obtained.answeredBy (hc : Conduct journal owner reserved hosts)
    (h : s.Obtained journal reserved hosts m p) : s.AnsweredBy m p := by
  obtain ⟨s₀, s₁, host, hh, hr, hl, heval, hsteps⟩ := h
  have hm := has_of_isLinked hl
  exact ((evaluate_ends hc hh (hr.resting hc) hm heval).answered.resolve_right
    fun hn => hn.1 hl).steps hc (hr.move (.evaluate hh hm heval)) hsteps

/-- A reserved promise of a module without a root is rejected with what the module has failed with,
once it is settled. -/
theorem Resting.failed_of_settled (h : s.Resting journal owner reserved known spare)
    {c : Capability} (hc : (s.cyclic m).capability = some c) (hres : c.promise ∈ reserved)
    (hroot : (s.cyclic m).root = none) {y : Settlement}
    (hy : (s.promise c.promise).settlement? = some y) :
    ∃ e, y = .rejected e ∧ (s.cyclic m).error = some e := by
  have ht := h.coherent.tells m c hc hres
  have hl : ¬(Focus.rest known spare).IsLate m := fun ⟨_, hl⟩ => nomatch hl
  have hst : (s.cyclic m).status = .evaluated := by_contra fun hn => by
    have hu := ht.waiting (.inr hn)
    rw [Undecided, ← PromiseState.phase_snd] at *
    rw [hu] at hy
    cases hy
  cases he : (s.cyclic m).error with
  | none => exact (((h.sound.shaped m).complete hst he).1 hroot).elim
  | some e => exact ⟨e, Option.some.inj (hy.symm.trans (ht.failed hl hst e he)), rfl⟩

/-- **One shared error per failed component, unless its modules fail apart.** Of two modules of a
component that were linked when they were evaluated, if the promise of the first one is rejected and
that of the second one is settled, and both are reserved, then the latter is rejected too. It is
rejected with the same value, unless neither module has a root and, earlier in the run, one of them
had failed already while the other was still linked. -/
theorem component_shares_its_error (hc : Conduct journal owner reserved hosts)
    (hfixed : ∀ m r n, Entry.resolved m r n ∈ journal s.host → resolver m r = some n)
    {p q : PromiseId} (hp : s.Obtained journal reserved hosts m p)
    (hq : s.Obtained journal reserved hosts n q) (hpres : p ∈ reserved) (hqres : q ∈ reserved)
    (hm : s.isCyclic m) (hn : s.isCyclic n) (hmn : s.Connected resolver m n)
    (hrejected : (s.promise p).settlement? = some (.rejected e))
    {y : Settlement} (hsettled : (s.promise q).settlement? = some y) :
    ∃ e', y = .rejected e' ∧ (e' = e ∨ s.cycleRoot? m = none ∧ s.cycleRoot? n = none ∧
      ∃ s₀, Reachable journal reserved hosts s₀ ∧ ReflTransGen (Step journal reserved hosts) s₀ s ∧
        (s₀.evaluationError? m = some e ∧ s₀.status n = .linked ∨
          s₀.evaluationError? n = some e' ∧ s₀.status m = .linked)) := by
  have hreach := hp.reachable
  have hrest := hreach.resting hc
  obtain ⟨c, hcap, rfl⟩ := hrest.capability_of_answeredBy (hp.answeredBy hc) hm
  obtain ⟨d, hcap', rfl⟩ := hrest.capability_of_answeredBy (hq.answeredBy hc) hn
  have hsame : (s.cyclic n).root.getD n = (s.cyclic m).root.getD m →
      ∃ e', y = .rejected e' ∧ e' = e := fun he => by
    rw [he, hcap] at hcap'
    cases hcap'
    exact ⟨e, Option.some.inj (hsettled.symm.trans hrejected), rfl⟩
  cases hr : (s.cyclic m).root with
  | some r =>
    obtain ⟨e', hy, he⟩ := hsame (by rw [hr, hrest.root_of_connected hfixed hr hmn]; rfl)
    exact ⟨e', hy, .inl he⟩
  | none =>
    have hr' : (s.cyclic n).root = none := by
      by_contra hne
      obtain ⟨r, hr'⟩ := Option.ne_none_iff_exists'.1 hne
      cases (hrest.root_of_connected hfixed hr' hmn.symm).symm.trans hr
    rw [hr] at hcap
    rw [hr'] at hcap'
    obtain ⟨_, he, hfailed⟩ := hrest.failed_of_settled hcap hpres hr hrejected
    cases he
    obtain ⟨e', rfl, hfailed'⟩ := hrest.failed_of_settled hcap' hqres hr' hsettled
    refine ⟨e', rfl, (hreach.accords hc m n e e' hfailed hfailed' hr hr').imp id fun hparted => ?_⟩
    refine ⟨(cycleRoot?_eq s m).trans hr, (cycleRoot?_eq s n).trans hr', ?_⟩
    obtain hparted | hparted := hparted
    · obtain ⟨s₀, h₀, hsteps, hboth⟩ := hparted.linked hc hfixed hr' hmn
      exact ⟨s₀, h₀, hsteps, .inl hboth⟩
    · obtain ⟨s₀, h₀, hsteps, hboth⟩ := hparted.linked hc hfixed hr hmn.symm
      exact ⟨s₀, h₀, hsteps, .inr hboth⟩

end Machine

/-! ## A ring whose modules fail apart -/

namespace Ring

/-- Module `2` throws, and so does module `3`. -/
def throwing (m : ModuleId) : BodyPlan :=
  if m = ⟨2⟩ then .throws (.boolean true) else if m = ⟨3⟩ then .throws (.boolean false)
  else .completes

def first : Machine Journal ModuleId := evaluated throwing ⟨0⟩ (linked throwing)

def apart : Machine Journal ModuleId := evaluated throwing ⟨1⟩ first

def early : Machine Journal ModuleId := evaluated (fun _ => .completes) ⟨0⟩ made

def late : Machine Journal ModuleId :=
  evaluated (fun _ => .completes) ⟨1⟩ (link (fun _ => .completes) early)

variable {body : ModuleId → BodyPlan} {s : Machine Journal ModuleId} {m : ModuleId} {p : PromiseId}

theorem move_evaluate (hm : s.Has m) (h : ((Ring.host body).evaluate m s).map (·.1) = some p) :
    Machine.Move id Set.univ {Ring.host body} s (evaluated body m s) := .evaluate rfl hm
      (evaluate_eq h)

theorem obtained (hs : Machine.Reachable id Set.univ {Ring.host body} s) (hm : s.status m = .linked)
    (h : ((Ring.host body).evaluate m s).map (·.1) = some p) :
    (evaluated body m s).Obtained id Set.univ {Ring.host body} m p :=
  ⟨s, _, _, rfl, hs, by rw [hm]; trivial, evaluate_eq h, .refl⟩

theorem obtained_first : first.Obtained id Set.univ {Ring.host throwing} ⟨0⟩ ⟨0⟩ :=
  obtained (reachable_linked throwing Set.univ (by decide)) (by decide) (by decide)

theorem move_apart : Machine.Move id Set.univ {Ring.host throwing} first apart :=
  move_evaluate (p := ⟨1⟩) (Machine.has_of_status_ne (by decide)) (by decide)

theorem obtained_apart : apart.Obtained id Set.univ {Ring.host throwing} ⟨1⟩ ⟨1⟩ :=
  obtained obtained_first.reachable (by decide) (by decide)

theorem connected_apart : apart.Connected (ring throwing).target ⟨0⟩ ⟨1⟩ :=
  ⟨.single ⟨"1", by decide, by decide⟩, .single ⟨"0", by decide, by decide⟩⟩

theorem move_late : Machine.Move id Set.univ {Ring.host fun _ => .completes} early
    (link (fun _ => .completes) early) :=
  move_link (by decide : 0 < 4) (by decide)

theorem reachable_early : Machine.Reachable id Set.univ {Ring.host fun _ => .completes} early :=
  (reachable_made Set.univ).move (move_evaluate (p := ⟨0⟩) (by decide : 0 < 4) (by decide))

end Ring

/-- The modules of a component need not share their error. Module `0` requests a module that throws
before it requests module `1`, which stays linked and later fails with another value. And a module
that is evaluated before it is linked is refused with an error of its own, which its component does
not share. -/
theorem component_may_fail_apart :
    (Conduct id id Set.univ {Ring.host Ring.throwing} ∧
      Ring.apart.Obtained id Set.univ {Ring.host Ring.throwing} ⟨0⟩ ⟨0⟩ ∧
      Ring.apart.Obtained id Set.univ {Ring.host Ring.throwing} ⟨1⟩ ⟨1⟩ ∧
      Ring.apart.isCyclic ⟨0⟩ ∧ Ring.apart.isCyclic ⟨1⟩ ∧
      (∀ m r n, Entry.resolved m r n ∈ Ring.apart.host →
        (ring Ring.throwing).target m r = some n) ∧
      Ring.apart.Connected (ring Ring.throwing).target ⟨0⟩ ⟨1⟩ ∧
      (Ring.apart.promise ⟨0⟩).settlement? = some (.rejected (.boolean true)) ∧
      (Ring.apart.promise ⟨1⟩).settlement? = some (.rejected (.boolean false))) ∧
    Ring.late.Returned id Set.univ {Ring.host fun _ => .completes} ⟨0⟩ ⟨0⟩ ∧
      Ring.late.Obtained id Set.univ {Ring.host fun _ => .completes} ⟨1⟩ ⟨1⟩ ∧
      (Ring.late.promise ⟨0⟩).settlement? = some (.rejected (.error ⟨0⟩)) ∧
      (Ring.late.promise ⟨1⟩).settlement? = some (.fulfilled .undefined) := by
  refine ⟨⟨(ring Ring.throwing).conduct 5 Set.univ,
    Ring.obtained_first.steps (.single (.move Ring.move_apart)), Ring.obtained_apart, by decide,
    by decide, Ring.fixed_of_all Ring.throwing (by decide), Ring.connected_apart, by decide,
    by decide⟩, ?_, ?_, by decide, by decide⟩
  · exact ⟨Ring.made, Ring.early, _, rfl, Ring.reachable_made Set.univ, (by decide : 0 < 4),
      Ring.evaluate_eq (by decide), .head (.move Ring.move_late) (.single (.move
        (Ring.move_evaluate (p := ⟨1⟩) (Machine.has_of_status_ne (by decide)) (by decide))))⟩
  · exact Ring.obtained (Ring.reachable_early.move Ring.move_late) (by decide) (by decide)

/-- Modules `0` and `1` have failed with different values, so one of them had done so while the
other was still linked. -/
theorem component_shares_its_error_ring :
    (Ring.apart.promise ⟨0⟩).settlement? = some (.rejected (.boolean true)) ∧
      ∃ s₀, Machine.Reachable id Set.univ {Ring.host Ring.throwing} s₀ ∧
        (s₀.evaluationError? ⟨0⟩ = some (.boolean true) ∧ s₀.status ⟨1⟩ = .linked ∨
          s₀.evaluationError? ⟨1⟩ = some (.boolean false) ∧ s₀.status ⟨0⟩ = .linked) := by
  have hrejected : (Ring.apart.promise ⟨0⟩).settlement? = some (.rejected (.boolean true)) := by
    decide
  have hsettled : (Ring.apart.promise ⟨1⟩).settlement? = some (.rejected (.boolean false)) := by
    decide
  obtain ⟨e', he, hsame⟩ := Machine.component_shares_its_error
    ((ring Ring.throwing).conduct 5 Set.univ) (Ring.fixed_of_all Ring.throwing (by decide))
    (Ring.obtained_first.steps (.single (.move Ring.move_apart))) Ring.obtained_apart
    (Set.mem_univ _) (Set.mem_univ _) (by decide) (by decide) Ring.connected_apart hrejected
    hsettled
  cases he
  obtain hsame | ⟨-, -, s₀, hr, -, hs₀⟩ := hsame
  · cases hsame
  · exact ⟨hrejected, s₀, hr, hs₀⟩

end ModuleGraph

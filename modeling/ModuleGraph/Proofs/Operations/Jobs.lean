import ModuleGraph.Proofs.Operations.Linking
import ModuleGraph.Proofs.Promises.Wired

/-! # What jobs do to the machine

A job settles what a promise follows, runs the handler of a reaction, or redeems a ticket; then the
imported module is linked and evaluated. Terms that hold across links of modules that were found,
across callbacks, and across what jobs take from the machine hold across all jobs. -/

namespace ModuleGraph

variable {σ κ : Type} {host : Host σ κ} {s s' : Machine σ κ}

/-! ## Tickets and reactions -/

namespace Machine

variable {t : TicketId} {r : ReactionId}

theorem finishImport_cases {i : PendingImport} {found : Except Value ModuleId} {u : Unit}
    (hi : s.import? t = some i) (hrun : host.finishImport t found s = some (u, s')) :
    (∃ e, found = .error e ∧ s' = (s.takeImport t).2.reject host.track i.capability e) ∨
      ∃ m, found = .ok m ∧ host.loadImported i.capability m (s.takeImport t).2 = some (u, s') := by
  have hfst : (s.takeImport t).1 = some i := by rw [takeImport, hi]
  rw [Host.finishImport, Run.make_bind, hfst] at hrun
  cases found with
  | error e =>
    cases hrun
    exact .inl ⟨e, rfl, rfl⟩
  | ok m => exact .inr ⟨m, rfl, hrun⟩

/-- Redeeming a ticket that is not open does nothing. -/
theorem finishImport_of_redeemed (host : Host σ κ) (found : Except Value ModuleId)
    (hi : s.import? t = none) : host.finishImport t found s = some ((), s) := by
  have htake : s.takeImport t = (none, s) := by rw [takeImport, hi]
  rw [Host.finishImport, Run.make_bind, htake]
  rfl

theorem takeReaction_eq {job : Job} {rest : List Job} (hjobs : s.jobs = job :: rest)
    (r : ReactionId) : ({ s with jobs := rest } : Machine σ κ).takeReaction r =
      (s.reaction? r, s.takeFirst r) := by
  rw [takeReaction, takeFirst, hjobs, reaction?]
  cases hr : s.reactions[r.index]? with
  | none => rw [Array.setIfInBounds_eq_of_size_le (Array.getElem?_eq_none_iff.1 hr)]; rfl
  | some reaction =>
    cases reaction with
    | some reaction => rfl
    | none =>
      have hset : s.reactions.setIfInBounds r.index none = s.reactions := by
        refine Array.ext_getElem? fun i => ?_
        rw [Array.getElem?_setIfInBounds]
        split
        · rename_i e
          rw [← e, hr, if_pos (Array.getElem?_eq_some_iff.1 hr).1]
        · rfl
      rw [hset]
      rfl

/-- The handler of a reaction is run, and then the capability is settled. -/
theorem runJob_react {x : Settlement} {rest : List Job} (hjobs : s.jobs = .react r x :: rest)
    {reaction : Reaction κ} (hr : s.reaction? r = some reaction) {result : Except Value Unit}
    (hrun : runJob host (.react r x) { s with jobs := rest } = some (result, s')) :
    ∃ result' s₁, runHandler host reaction.handler x (s.takeFirst r) = some (result', s₁) ∧
      s' = reaction.capability.elim s₁ fun c => s₁.settle host.track c result' := by
  rw [runJob, Act.make_bind, takeReaction_eq hjobs] at hrun
  dsimp only at hrun
  rw [hr] at hrun
  obtain ⟨result', s₁, hhandler, hrun⟩ | ⟨e, hhandler, -⟩ := throwing_bind.1 hrun
  · obtain ⟨_, he, hhandler⟩ := Act.ofRun_eq_some.1 hhandler
    cases he
    refine ⟨result', s₁, hhandler, ?_⟩
    cases hcap : reaction.capability with
    | none =>
      rw [hcap] at hrun
      cases result' <;> cases hrun <;> rfl
    | some c =>
      rw [hcap] at hrun
      cases hrun
      rfl
  · obtain ⟨_, he, _⟩ := Act.ofRun_eq_some.1 hhandler
    cases he

/-- Nothing happens when the reaction was taken before. -/
theorem runJob_spent {x : Settlement} {rest : List Job} (hjobs : s.jobs = .react r x :: rest)
    (hr : s.reaction? r = none) {result : Except Value Unit}
    (hrun : runJob host (.react r x) { s with jobs := rest } = some (result, s')) :
    s' = s.takeFirst r := by
  rw [runJob, Act.make_bind, takeReaction_eq hjobs] at hrun
  dsimp only at hrun
  rw [hr] at hrun
  cases hrun
  rfl

theorem runNextJob_job {job : Job} {rest : List Job} (hjobs : s.jobs = job :: rest)
    {result : Except Value Bool} (hrun : runNextJob host s = some (result, s')) :
    ∃ result', runJob host job { s with jobs := rest } = some (result', s') := by
  rw [runNextJob, Act.make_bind, takeJob, hjobs] at hrun
  obtain ⟨⟨⟩, s₁, hjob, hrun⟩ | ⟨e, hjob, -⟩ := throwing_bind.1 hrun
  · cases hrun
    exact ⟨_, hjob⟩
  · exact ⟨_, hjob⟩

end Machine

/-! ## Terms -/

/-- Terms that hold also across links of modules that were found, across callbacks, and across what
jobs take from the machine. All promises may be settled, and a module may be touched when its body
has come to its end. -/
structure CarriesJobs (host : Host σ κ) (w : Terms σ κ) : Prop extends Carries host w where
  promise : ∀ s p, w.may s (.promise p)
  body : ∀ {s r m}, w.known s → s.handler? r = some (.bodyEnded m) → w.may s (.module m)
  finds : ∀ {referrer specifier s m s'}, host.resolve referrer specifier s = some (.ok m, s') →
    w.may s' (.found m)
  link : ∀ {m s r s'}, w.may s (.found m) → host.link m s = some (r, s') → w.change s s'
  call : ∀ code x, Within w.change (host.call code x)
  requested : ∀ referrer specifier ticket,
    Along w.change (host.importRequested referrer specifier ticket)
  follow : ∀ s p followed, w.change s (s.attach host.track followed ⟨.passOn, some ⟨p, false⟩⟩)
  beside : ∀ {s s'}, s'.modules = s.modules → s'.host = s.host →
    (∀ r k, s'.handler? r = some k → s.handler? r = some k) → w.change s s'

namespace CarriesJobs

variable {w : Terms σ κ}

theorem finishImport (h : CarriesJobs host w) {t : TicketId} {found : Except Value ModuleId}
    {u : Unit} (hfound : ∀ m, found = .ok m → w.may s (.found m))
    (hrun : host.finishImport t found s = some (u, s')) : w.change s s' := by
  refine h.assume fun hs => ?_
  cases hi : s.import? t with
  | none =>
    rw [Machine.finishImport_of_redeemed host found hi] at hrun
    cases hrun
    exact h.refl s
  | some i =>
    have htake : w.change s (s.takeImport t).2 := by
      rw [Machine.takeImport, hi]
      exact h.beside rfl rfl fun _ _ => id
    refine h.trans htake ?_
    obtain ⟨e, -, rfl⟩ | ⟨m, hm, hload⟩ := Machine.finishImport_cases hi hrun
    · exact h.reject _ e (h.promise _ _)
    · exact h.loadImported (fun _ _ => h.link (h.may hs htake (hfound m hm))) (h.promise _ _) hload

theorem react (h : CarriesJobs host w) {r : ReactionId} {x : Settlement} {rest : List Job}
    (hjobs : s.jobs = .react r x :: rest) {result : Except Value Unit}
    (hrun : runJob host (.react r x) { s with jobs := rest } = some (result, s')) :
    w.change s s' := by
  refine h.assume fun hs => ?_
  have htake : w.change s (s.takeFirst r) :=
    h.beside rfl rfl fun _ _ hk => (Machine.handler?_takeFirst.1 hk).2
  cases hr : s.reaction? r with
  | none =>
    cases Machine.runJob_spent hjobs hr hrun
    exact htake
  | some reaction =>
    obtain ⟨result, s₁, hhandler, rfl⟩ := Machine.runJob_react hjobs hr hrun
    have hadmits : w.Admits (s.takeFirst r) reaction.handler := by
      cases e : reaction.handler with
      | bodyEnded m =>
        refine h.may hs htake (h.body (r := r) hs ?_)
        rw [Machine.handler?, hr, Option.map_some, e]
      | resumeBody m c code => exact h.promise _ _
      | joined j k => exact h.promise _ _
      | passOn | callback | imported => trivial
    have hhandled := h.runHandler (fun code _ => h.call code x)
      (fun _ _ _ _ _ => h.beside rfl rfl fun _ _ => id) hadmits hhandler
    refine h.trans htake (h.trans hhandled ?_)
    cases reaction.capability with
    | none => exact h.refl s₁
    | some c => exact h.settle s₁ result (h.promise _ _)

theorem runJob (h : CarriesJobs host w) {job : Job} {rest : List Job} (hjobs : s.jobs = job :: rest)
    {result : Except Value Unit}
    (hrun : ModuleGraph.runJob host job { s with jobs := rest } = some (result, s')) :
    w.change s s' := by
  have htake : w.change s { s with jobs := rest } := h.beside rfl rfl fun _ _ => id
  cases job with
  | adopt promise followed =>
    cases hrun
    exact h.trans htake (h.follow _ promise followed)
  | finishImport referrer specifier ticket =>
    refine h.trans htake ?_
    obtain ⟨found, s₁, hresolve, hfinish⟩ | ⟨e, hresolve, -⟩ := throwing_bind.1 hrun
    · obtain ⟨_, hfound, hresolve⟩ := Act.ofRun_eq_some.1 hresolve
      cases hfound
      obtain ⟨_, -, hfinish⟩ := Act.ofRun_eq_some.1 hfinish
      refine h.trans (h.chores.resolve referrer specifier _ _ _ hresolve)
        (h.finishImport (fun m hm => ?_) hfinish)
      subst hm
      exact h.finds hresolve
    · obtain ⟨_, he, _⟩ := Act.ofRun_eq_some.1 hresolve
      cases he
  | react r x => exact h.react hjobs hrun

theorem runNextJob (h : CarriesJobs host w) : Within w.change (ModuleGraph.runNextJob host) := by
  intro s result s' hrun
  cases hjobs : s.jobs with
  | nil =>
    rw [ModuleGraph.runNextJob, Act.make_bind, Machine.takeJob, hjobs] at hrun
    cases hrun
    exact h.refl s
  | cons job rest =>
    obtain ⟨result, hjob⟩ := Machine.runNextJob_job hjobs hrun
    exact h.runJob hjobs hjob

theorem runJobs (h : CarriesJobs host w) : Within w.change host.runJobs := by
  rw [Host.runJobs]
  induction host.depth with
  | zero => exact Within.exhausted
  | succ count ih =>
    rw [drain]
    refine Within.bind h.toComposes h.runNextJob fun more => ?_
    split
    · exact ih
    · exact Within.pure h.toComposes _

/-! ## Relations without terms -/

/-- What happens beside the modules is covered by what happens to promises. -/
theorem of_aside {R : Machine σ κ → Machine σ κ → Prop} (hcarries : Carries host (.plain R))
    (hhooks : Hooks host R) (hlink : ∀ m, Along R (host.link m))
    (haside : ∀ {s s'}, s.Aside host.track s' → R s s') : CarriesJobs host (.plain R) where
  toCarries := hcarries
  promise _ _ := trivial
  body _ _ := trivial
  finds _ := trivial
  link _ hrun := hlink _ _ _ _ hrun
  call := hhooks.call
  requested := hhooks.importRequested
  follow s _ followed := haside (s.aside_attach followed _)
  beside hm hh _ := haside (.of_eq hm hh)

/-- It is enough that the relation holds for the host and for the keys of namespaces, beside the
modules, and for the updates of single modules that leave their texts. -/
theorem of_sameText {R : Machine σ κ → Machine σ κ → Prop} (hR : Composes R) (hhooks : Hooks host R)
    (hkeys : ∀ m, Within R (host.namespaceKeys m))
    (haside : ∀ {s s'}, s.Aside host.track s' → R s s')
    (hupdate : ∀ s m {f}, (∀ x : Module, x.SameText (f x)) → R s (s.updateModule m f)) :
    CarriesJobs host (.plain R) := by
  have hcarries : Carries host (.plain R) := by
    exact .of_aside hR hhooks hkeys haside (fun s m f hf => hupdate s _ fun x =>
      ⟨ModuleKind.sameText_updateCyclic (fun c => (hf c).requested) x.kind, rfl⟩)
      (fun s m p f hleaf hkind => hupdate s m fun x =>
        ⟨ModuleKind.sameText_answered hleaf hkind x.kind, rfl⟩)
      fun s m f hf => hupdate s m fun x => ⟨by rw [(hf x).1]; exact ⟨rfl, rfl⟩, (hf x).2⟩
  have hlink : CarriesLink host (.plain R) :=
    ⟨hcarries, fun s m _ hf => hupdate s m fun x => ⟨(hf x.kind).sameText, rfl⟩⟩
  exact .of_aside hcarries hhooks hlink.link haside

end CarriesJobs

end ModuleGraph

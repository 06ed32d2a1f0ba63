import ModuleGraph.Proofs.Runs.Bodies

/-! # Leaves of a run

A leaf is evaluated at once, and its promise is settled from the start. A module that requests a
leaf goes on only if the leaf was evaluated without an error. -/

namespace ModuleGraph

open Relation

variable {σ κ : Type} {journal : σ → Journal} {owner : κ → ModuleId} {reserved : Set PromiseId}
variable {hosts : Set (Host σ κ)} {host : Host σ κ}

namespace Machine

variable {s s' : Machine σ κ} {o : Focus} {a : Agenda} {m : ModuleId} {p : PromiseId} {e : Value}

/-! ## Promises that are rejected from the start -/

theorem undecided_newCapability (s : Machine σ κ) : s.newCapability.2.Undecided s.nextPromise := by
  rw [Undecided]
  exact congrArg _ ((promise_newPromise s _ _).trans (if_pos rfl))

theorem made_newCapability (s : Machine σ κ) : s.newCapability.2.Made s.nextPromise := by
  simp [Made, newCapability, newPromise, nextPromise]

/-- A new promise may be settled by anybody who knows it. -/
theorem Coherent.maySettle_new (h : s.Coherent journal owner reserved o) :
    s.newCapability.2.MaySettle reserved s.nextPromise := by
  refine ⟨made_newCapability s, fun m ⟨r, hr, _⟩ => ?_, fun _ ⟨m, c, hm, hc⟩ => ?_⟩
  · have hn : (s.newCapability.2.promise s.nextPromise).reactions = [] := by
      rw [show s.newCapability.2.promise s.nextPromise = .pending [] false from
        (promise_newPromise s _ _).trans (if_pos rfl)]
      rfl
    rw [Holds, hn] at hr
    cases hr
  · exact ne_nextPromise (h.capable m c hm).2 hc

/-- Rejecting a new promise is something that a host may do. -/
theorem Coherent.calls_newRejected (h : s.Coherent journal owner reserved o) (hh : host ∈ hosts)
    (e : Value) : Calls journal reserved hosts s (s.newRejected host.track e).2 :=
  .tail (.single (.newPromise s rfl))
    (.settle (c := ⟨s.nextPromise, true⟩) s.newCapability.2 (.error e) hh h.maySettle_new)

theorem settlement?_newRejected (hc : Conduct journal owner reserved hosts) (hh : host ∈ hosts)
    (s : Machine σ κ) (e : Value) : ((s.newRejected host.track e).2.promise
      (s.newRejected host.track e).1).settlement? = some (.rejected e) := by
  have hend := reject_ended s.newCapability.2 (hc.track host hh) ⟨s.nextPromise, true⟩ (e := e)
    (not_isSpent_of_undecided (undecided_newCapability s))
  rw [← PromiseState.phase_snd]
  exact congrArg Prod.snd (hend.settled (made_newCapability s))

/-- A refusal: a new promise that is rejected with a new error. -/
theorem Coherent.refuse (hc : Conduct journal owner reserved hosts) (hh : host ∈ hosts)
    (h : s.Coherent journal owner reserved o) (hs : (s.graph journal a).Sound) (kind : ErrorKind)
    (message : String) :
    (((s.newError kind message).2.newRejected host.track (s.newError kind message).1).2).Coherent
        journal owner reserved o ∧
      (s.graph journal a).Calm (((s.newError kind message).2.newRejected host.track
        (s.newError kind message).1).2.graph journal a) := by
  have hu : s.Unmoved journal (s.newError kind message).2 := .newError s kind message
  have h₁ := h.unmoved hu
  have hcalls := h₁.calls_newRejected hh (s.newError kind message).1
  have hcalm := (quiet_of_unmoved hu).calm hs
  exact ⟨h₁.calls hc.track hcalls,
    hcalm.trans ((quiet_of_calls hc.track hcalls).calm (hcalm.sound hs))⟩

/-! ## Evaluating a leaf -/

def keepPromise (s : Machine σ κ) (m : ModuleId) (p : PromiseId) : Machine σ κ :=
  s.updateKind m fun
    | .leaf _ => .leaf (.evaluated p)
    | k => k

theorem leaf?_keepPromise (h : (s.module m).kind.leaf? = some .linked) (x : ModuleId) :
    ((s.keepPromise m p).module x).kind.leaf? =
      if x = m then some (.evaluated p) else (s.module x).kind.leaf? := by
  rw [keepPromise, kind_updateKind _ (has_of_leaf h)]
  split
  · rename_i e
    subst e
    rw [ModuleKind.eq_of_leaf? h]
    rfl
  · rfl

theorem quiet_keepPromise (h : (s.module m).kind.leaf? = some .linked) :
    s.Quiet journal (s.keepPromise m p) where
  size := by simp [keepPromise, updateKind]
  cyclic x _ := by
    rw [keepPromise, cyclic?_eq, cyclic?_eq, kind_updateKind _ (has_of_leaf h)]
    split
    · cases (s.module x).kind <;> rfl
    · rfl
  leaf x hx := by
    obtain ⟨q, v, hk, hv⟩ := hx
    refine ⟨q, v, ?_, hv⟩
    rw [leaf?_keepPromise h]
    split
    · rename_i e
      rw [e, h] at hk
      cases hk
    · exact hk
  made x hx := by
    refine untouched_of_isNew ?_
    rw [keepPromise, kind_updateKind _ (has_of_leaf h), if_neg]
    · exact isNew_of_not_has hx
    · rintro rfl
      exact hx (has_of_leaf h)
  evaluated x q hx := by
    rw [leaf?_keepPromise h]
    split
    · rename_i e
      rw [e, h] at hx
      cases hx
    · exact hx
  linked x := by
    rw [status, status, keepPromise, kind_updateKind _ (has_of_leaf h)]
    split
    · rename_i e
      rw [e]
      cases hk : (s.module m).kind with
      | leaf state =>
        rw [hk] at h
        cases h
        exact Iff.rfl
      | source | foreign => exact Iff.rfl
    · exact Iff.rfl
  runnable x _ hx := by
    rw [keepPromise, kind_updateKind _ (has_of_leaf h)]
    split
    · cases hk : (s.module x).kind <;> rw [hk] at hx <;> exact hx
    · exact hx
  errors := .refl s
  noted := ⟨[], Journal.answers_nil, (List.append_nil _).symm⟩
  nextTurn := rfl

theorem Coherent.openLeaf (h : s.Coherent journal owner reserved o) (hl : o.leaf = none)
    (m : ModuleId) : s.Coherent journal owner reserved { o with leaf := some m } := by
  refine h.changes (.refl s) rfl (fun _ hx => hx) (fun x hx => ?_) id h.wired (fun _ hp => hp)
    h.leaves (fun _ _ hp => hp) (fun _ _ hx => hx) fun x c hx he hres =>
      (h.tells x c hx hres).quiet he Iff.rfl (fun _ hv => hv) id
  rw [hl] at hx
  cases hx

theorem Coherent.keepPromise (h : s.Coherent journal owner reserved { o with leaf := some m })
    (hm : (s.module m).kind.leaf? = some .linked) (hp : s.LeafSettled journal m p) :
    (s.keepPromise m p).Coherent journal owner reserved o := by
  refine h.changes (quiet_keepPromise hm) rfl (fun _ hx => hx) (fun x hx => ?_) id ?_
    (fun _ hp => hp) (fun x q hx => ?_) (fun _ _ hp => hp) (fun _ _ hx => hx) fun x c hx he hres =>
      (h.tells x c hx hres).quiet he Iff.rfl (fun _ hv => hv) id
  · cases hx
    exact .inr ⟨p, by rw [leaf?_keepPromise hm, if_pos rfl]⟩
  · exact h.wired.aside (fun _ hp => hp) (fun _ _ _ => rfl) (fun _ _ => Iff.rfl) rfl (Nat.le_refl _)
      (fun _ _ => Iff.rfl) fun _ hp => .inl hp
  · rw [leaf?_keepPromise hm] at hx
    split at hx
    · rename_i e
      cases hx
      exact e ▸ hp
    · exact h.leaves x q hx

/-- The body of a leaf has no effect on the evaluation of modules that take part in cycles. -/
theorem Executes.calm_of_leaf {r : Except Value (Execution κ)}
    (hc : Conduct journal owner reserved hosts)
    (he : s.Executes journal owner reserved hosts m r s')
    (hs : (s.graph journal a).Sound) (hm : s.isCyclic m = false) :
    (s.graph journal a).Calm (s'.graph journal a) := by
  obtain ⟨h, hj, hp⟩ := he
  have hcalm : (s.graph journal a).Calm ((s.setHost h).graph journal a) := by
    refine calm_setHost s hj (fun x hx => ?_) hs
    have hne : m ≠ x := by
      rintro rfl
      rw [hm] at hx
      cases hx
    simp [Journal.starts, Entry.isStart, hne]
  exact hcalm.trans (hp.calm hc (hcalm.sound hs))

theorem leaf?_of_calls (hc : Conduct journal owner reserved hosts) {state : LeafState}
    (h : Calls journal reserved hosts s s') (hm : (s.module m).kind.leaf? = some state) :
    (s'.module m).kind.leaf? = some state := by
  induction h with
  | refl => exact hm
  | tail _ hcall ih =>
    obtain he | ⟨hb, -⟩ := hcall.elsewhere_or_beside hc.track
    · rw [he.leaf m (has_of_leaf ih), ih]
    · rw [module, hb.modules]
      exact ih

theorem Executes.leaf? {r : Except Value (Execution κ)} (hc : Conduct journal owner reserved hosts)
    (he : s.Executes journal owner reserved hosts m r s') {state : LeafState}
    (hm : (s.module m).kind.leaf? = some state) : (s'.module m).kind.leaf? = some state := by
  obtain ⟨h, -, ⟨s₁, h', hcalls, rfl, -⟩, -⟩ := he
  have hk : (s₁.module m).kind.leaf? = some state := leaf?_of_calls hc hcalls hm
  exact hk

structure LeafVisit (journal : σ → Journal) (owner : κ → ModuleId) (reserved : Set PromiseId)
    (o : Focus) (a : Agenda) (m : ModuleId) (s : Machine σ κ) (p : PromiseId) (s' : Machine σ κ) :
    Prop where
  coherent : s'.Coherent journal owner reserved o
  calm : (s.graph journal a).Calm (s'.graph journal a)
  settled : (s'.promise p).settlement? ≠ none
  kept : (s'.module m).kind.leaf? = some (.evaluated p) ∨
    ¬(s.status m).IsLinked ∧ ∃ e, (s'.promise p).settlement? = some (.rejected e)
  done : ∀ v, (s'.promise p).settlement? = some (.fulfilled v) → s'.LeafDone m
  threw : ((journal s'.host).Stable → (s.status m).IsLinked) →
    ∀ e, (s'.promise p).settlement? = some (.rejected e) → s'.Throws journal m e

/-- The promise that a leaf keeps is made when its body has ended. -/
theorem leafVisit_of_made {s₁ s₂ : Machine σ κ}
    (h : s₂.Coherent journal owner reserved { o with leaf := some m }) (hq : s₁.Quiet journal s₂)
    (hs : (s₁.graph journal a).Sound) (hcalm : (s.graph journal a).Calm (s₁.graph journal a))
    (hm : (s₂.module m).kind.leaf? = some .linked) (hp : s₂.LeafSettled journal m p) :
    s.LeafVisit journal owner reserved o a m p (s₂.keepPromise m p) := by
  obtain ⟨y, hy, hthrew⟩ := hp
  have hkept : ((s₂.keepPromise m p).module m).kind.leaf? = some (.evaluated p) := by
    rw [leaf?_keepPromise hm, if_pos rfl]
  refine ⟨h.keepPromise hm ⟨y, hy, hthrew⟩, hcalm.trans ((hq.trans (quiet_keepPromise hm)).calm hs),
    ?_, .inl hkept, fun v hv => ⟨p, v, hkept, hv⟩, fun _ e he => ?_⟩
  · change (s₂.promise p).settlement? ≠ none
    rw [hy]
    exact fun e => nomatch e
  · exact (quiet_keepPromise hm).throws (hthrew e (Option.some.inj (hy.symm.trans he)))

section Leaf

variable (hc : Conduct journal owner reserved hosts) (hh : host ∈ hosts)
variable (h : s.Coherent journal owner reserved o) (hs : (s.graph journal a).Sound)
include h hs

include hc hh in
/-- A leaf that is not linked is refused. -/
theorem leafVisit_refused (message : String) (hm : ¬(s.status m).IsLinked) :
    s.LeafVisit journal owner reserved o a m
      (((s.newError .typeError message).2.newRejected host.track
        (s.newError .typeError message).1).1)
      (((s.newError .typeError message).2.newRejected host.track
        (s.newError .typeError message).1).2) := by
  have hr := h.refuse hc hh hs .typeError message
  have hset := settlement?_newRejected hc hh (s.newError .typeError message).2
    (s.newError .typeError message).1
  refine ⟨hr.1, hr.2, ?_, .inr ⟨hm, _, hset⟩, fun v hv => ?_, fun hlinked e _ hst => ?_⟩
  · exact fun e => nomatch hset.symm.trans e
  · cases hset.symm.trans hv
  · exact (hm (hlinked hst)).elim

/-- A leaf that was evaluated before returns the promise that it keeps. -/
theorem leafVisit_again (hm : (s.module m).kind.leaf? = some (.evaluated p)) :
    s.LeafVisit journal owner reserved o a m p s := by
  obtain ⟨y, hy, hthrew⟩ := h.leaves m p hm
  refine ⟨h, (Quiet.refl s).calm hs, ?_, .inl hm, fun v hv => ⟨p, v, hm, hv⟩,
    fun _ e he => hthrew e (Option.some.inj (hy.symm.trans he))⟩
  rw [hy]
  exact fun e => nomatch e

omit hs in
/-- A leaf that is not evaluated was not started before. -/
theorem Coherent.starts_of_linked (hl : o.leaf = none)
    (hm : (s.module m).kind.leaf? = some .linked) : (journal s.host).starts m = 0 := by
  by_contra hne
  obtain ⟨-, hx | ⟨q, hq⟩⟩ := (h.visited m hne).leaf (not_isCyclic_of_leaf hm)
  · rw [hl] at hx
    cases hx
  · rw [hm] at hq
    cases hq

include hc hh in
/-- The body of a leaf is run once, and its end is the settlement of the promise. -/
theorem leafVisit_first (hl : o.leaf = none) (hm : (s.module m).kind.leaf? = some .linked)
    {s₁ : Machine σ κ} {r : Except Value Unit}
    (he : s.Executes journal owner reserved hosts m (r.map fun _ => .completed) s₁) :
    ∃ p s₂, (match r with
      | .ok () => s₁.newFulfilled .undefined
      | .error e => s₁.newRejected host.track e) = (p, s₂) ∧
        s.LeafVisit journal owner reserved o a m p (s₂.keepPromise m p) := by
  have hcyc := not_isCyclic_of_leaf hm
  have hcoh := he.coherent hc (h.openLeaf hl m) (has_of_leaf hm)
    (fun _ => ⟨h.starts_of_linked hl hm, rfl⟩) fun hc => nomatch hcyc.symm.trans hc
  have hcalm := he.calm_of_leaf hc hs hcyc
  have hleaf := he.leaf? hc hm
  cases r with
  | ok u =>
    have hcalls : Calls journal reserved hosts s₁ (s₁.newFulfilled .undefined).2 :=
      .single (.newPromise s₁ rfl)
    refine ⟨_, _, rfl, leafVisit_of_made (hcoh.calls hc.track hcalls)
      (quiet_of_calls hc.track hcalls) (hcalm.sound hs) hcalm (leaf?_of_calls hc hcalls hleaf)
      ⟨.fulfilled .undefined, ?_, fun e he => nomatch he⟩⟩
    exact congrArg PromiseState.settlement? (promise_newPromise_self s₁ _)
  | error e =>
    have hcalls := hcoh.calls_newRejected hh e
    have hq := quiet_of_calls hc.track hcalls
    refine ⟨_, _, rfl, leafVisit_of_made (hcoh.calls hc.track hcalls) hq (hcalm.sound hs) hcalm
      (leaf?_of_calls hc hcalls hleaf) ⟨.rejected e, settlement?_newRejected hc hh s₁ e,
        fun e' he' => ?_⟩⟩
    cases he'
    exact hq.throws (he.threw rfl)

end Leaf

theorem evaluateLeaf_visit (hc : Conduct journal owner reserved hosts) (hh : host ∈ hosts)
    (h : s.Coherent journal owner reserved o) (hl : o.leaf = none) (hs : (s.graph journal a).Sound)
    (hm : s.isCyclic m = false) (hrun : evaluateLeaf host m s = some (p, s')) :
    s.LeafVisit journal owner reserved o a m p s' := by
  rw [evaluateLeaf, Run.view_bind] at hrun
  cases hk : (s.module m).kind with
  | source | foreign =>
    rw [isCyclic, cyclic?_eq, hk] at hm
    cases hm
  | leaf state =>
    rw [hk] at hrun
    have hleaf : (s.module m).kind.leaf? = some state := by
      rw [hk]
      rfl
    cases state with
    | unlinked =>
      have hn : ¬(s.status m).IsLinked := by
        rw [status, hk]
        exact id
      cases hrun
      exact leafVisit_refused hc hh h hs _ hn
    | evaluated q =>
      cases hrun
      exact leafVisit_again h hs hleaf
    | linked =>
      obtain ⟨r, s₁, h₁, hrun⟩ := Run.bind_eq_some.1 hrun
      obtain ⟨q, s₂, hmade, hv⟩ :=
        leafVisit_first hc hh h hs hl hleaf (hc.evaluateLeaf host hh h₁)
      cases r <;> cases hmade <;> cases hrun <;> exact hv

/-- A module that requests a leaf goes on if the leaf was evaluated without an error. -/
theorem requireLeaf_visit (hc : Conduct journal owner reserved hosts) (hh : host ∈ hosts)
    (h : s.Coherent journal owner reserved o) (hl : o.leaf = none) (hs : (s.graph journal a).Sound)
    (hm : s.isCyclic m = false) {result : Except Value Unit}
    (hrun : requireLeaf host m s = some (result, s')) :
    s'.Coherent journal owner reserved o ∧ (s.graph journal a).Calm (s'.graph journal a) ∧
      (result = .ok () → s'.LeafDone m) ∧
      (((journal s'.host).Stable → (s.status m).IsLinked) →
        ∀ e, result = .error e → s'.Throws journal m e) := by
  rw [requireLeaf, throwing_bind] at hrun
  obtain ⟨p, s₁, h₁, h₂⟩ | ⟨e, h₁, -⟩ := hrun
  · obtain ⟨p', hp', h₁⟩ := Act.ofRun_eq_some.1 h₁
    cases hp'
    have hv := evaluateLeaf_visit hc hh h hl hs hm h₁
    rw [Act.view_bind] at h₂
    cases hp : s₁.promise p with
    | pending rs b =>
      refine (hv.settled ?_).elim
      rw [hp]
      rfl
    | fulfilled v =>
      rw [hp] at h₂
      cases h₂
      exact ⟨hv.coherent, hv.calm, fun _ => hv.done v (by rw [hp]; rfl), fun _ _ e => nomatch e⟩
    | rejected e b =>
      rw [hp] at h₂
      cases h₂
      have hu : s₁.Unmoved journal (s₁.markHandled host.track p) :=
        .markHandled (hc.track host hh) s₁ p
      refine ⟨hv.coherent.unmoved hu, hv.calm.trans ((quiet_of_unmoved hu).calm (hv.calm.sound hs)),
        fun e => (nomatch e), fun hlinked e' he' => ?_⟩
      cases he'
      rw [hu.journal] at hlinked
      exact (quiet_of_unmoved hu).throws (hv.threw hlinked e (by rw [hp]; rfl))
  · obtain ⟨p', hp', -⟩ := Act.ofRun_eq_some.1 h₁
    cases hp'

end Machine

end ModuleGraph

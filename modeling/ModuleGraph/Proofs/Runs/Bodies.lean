import ModuleGraph.Proofs.Computation
import ModuleGraph.Proofs.Runs.Updates

/-! # Bodies of a run

When a body runs, the journal notes its start, the body makes its calls, and the journal notes how
it has ended. A body with top-level await settles a promise of its own, at once or when it is
resumed. -/

namespace ModuleGraph

open Relation

variable {σ κ : Type} {journal : σ → Journal} {owner : κ → ModuleId} {reserved : Set PromiseId}
variable {hosts : Set (Host σ κ)} {host : Host σ κ}

namespace Journal

variable {m x : ModuleId} {i : ErrorId} {r : Except Value (Execution κ)}

theorem starts_closing (m : ModuleId) (i : ErrorId) (r : Except Value (Execution κ))
    (x : ModuleId) : starts (closing m i r) x = 0 := by
  rcases r with e | ⟨⟩ | ⟨p, code⟩ <;> rfl

theorem ended_of_mem_closing (h : Entry.ended x ∈ closing m i r) : x = m := by
  rcases r with e | ⟨⟩ | ⟨p, code⟩
  · cases List.mem_singleton.1 h
  · cases List.mem_singleton.1 h
    rfl
  · cases List.mem_singleton.1 h

theorem not_started_closing : ∀ e ∈ closing m i r, ∀ x before, e ≠ .started x before := by
  rintro e he x before rfl
  rcases r with e | ⟨⟩ | ⟨p, code⟩ <;> cases List.mem_singleton.1 he

end Journal

namespace Machine

variable {s s' s'' : Machine σ κ} {o : Focus} {a : Agenda} {m x : ModuleId} {p : PromiseId}
variable {r : Except Value (Execution κ)}

/-! ## Pieces of a body -/

namespace Proceeds

theorem calm (hc : Conduct journal owner reserved hosts)
    (hp : s.Proceeds journal owner reserved hosts m r s') (hs : (s.graph journal a).Sound) :
    (s.graph journal a).Calm (s'.graph journal a) := by
  obtain ⟨⟨s₁, h, hcalls, rfl, hj⟩, -⟩ := hp
  have hq := quiet_of_calls hc.track hcalls
  exact (hq.calm hs).trans
    (calm_setHost s₁ hj (fun x _ => Journal.starts_closing m _ r x) (hq.sound hs))

theorem starts (hc : Conduct journal owner reserved hosts)
    (hp : s.Proceeds journal owner reserved hosts m r s') (x : ModuleId) :
    (journal s'.host).starts x = (journal s.host).starts x := by
  obtain ⟨⟨s₁, h, hcalls, rfl, hj⟩, -⟩ := hp
  change (journal h).starts x = _
  rw [hj, Journal.starts_append, Journal.starts_closing, (quiet_of_calls hc.track hcalls).starts]
  rfl

theorem noted (hc : Conduct journal owner reserved hosts)
    (hp : s.Proceeds journal owner reserved hosts m r s') {e : Entry} (he : e ∈ journal s.host) :
    e ∈ journal s'.host := by
  obtain ⟨⟨s₁, h, hcalls, rfl, hj⟩, -⟩ := hp
  change e ∈ journal h
  rw [hj]
  exact List.mem_append_left _ ((quiet_of_calls hc.track hcalls).mem_journal he)

theorem closing (hp : s.Proceeds journal owner reserved hosts m r s') {e : Entry}
    (he : e ∈ Journal.closing m s'.nextError r) : e ∈ journal s'.host := by
  obtain ⟨⟨s₁, h, hcalls, rfl, hj⟩, -⟩ := hp
  change e ∈ journal h
  rw [hj]
  exact List.mem_append_right _ he

theorem ended (hp : s.Proceeds journal owner reserved hosts m r s') (hr : r = .ok .completed) :
    Entry.ended m ∈ journal s'.host := hp.closing (by rw [hr]; exact List.mem_singleton_self _)

theorem threw (hp : s.Proceeds journal owner reserved hosts m r s') {e : Value}
    (hr : r = .error e) : s'.Throws journal m e :=
  fun _ => .inl (hp.closing (by rw [hr]; exact List.mem_singleton_self _))

theorem coherent (hc : Conduct journal owner reserved hosts)
    (hp : s.Proceeds journal owner reserved hosts m r s') (h : s.Coherent journal owner reserved o)
    (hm : (journal s.host).starts m ≠ 0) : s'.Coherent journal owner reserved o := by
  have hst := hp.starts hc m
  obtain ⟨⟨s₁, host, hcalls, rfl, hj⟩, -⟩ := hp
  have h₁ := h.calls hc.track hcalls
  refine h₁.setHost hj (fun x hx => (hx (Journal.starts_closing m _ r x)).elim) (fun x hx => ?_) ?_
  · rw [Journal.ended_of_mem_closing hx]
    exact fun e => hm (hst.symm.trans e)
  · rw [hj]
    exact h₁.logged.append Journal.not_started_closing

end Proceeds

/-! ## Whole bodies -/

/-- What the start of a body changes apart from the start itself. -/
theorem calm_started (s : Machine σ κ) {h : σ} {b : Machine Unit Unit}
    (hj : journal h = journal s.host ++ [.started m b])
    (hs : ((s.graph journal a).note (.started m b)).Sound) :
    ((s.graph journal a).note (.started m b)).Calm ((s.setHost h).graph journal a) where
  noted e he := by
    change e ∈ journal h
    rw [hj]
    exact he
  leaf _ hl := hl
  threw m e hm :=
    show (s.setHost h).Throws journal m e from Throws.mono hm ⟨_, hj⟩ (.refl s)
  requested _ _ hr := hr
  idle x hx := by
    refine ⟨hx, ((hs.shaped x).idle hx).1, fun hc => ?_⟩
    change (journal h).starts x = 0
    rw [hj]
    exact ((hs.shaped x).idle hx).2 hc
  awake x _ := by
    refine ⟨⟨_, _, rfl⟩, ?_⟩
    change (journal h).starts x = _
    rw [hj]
    rfl
  size := Nat.le_refl _
  nextTurn := rfl
  stack := rfl
  ready := rfl
  released := rfl
  debt := rfl
  doom := rfl
  path := rfl
  visits := rfl
  ancestor _ _ := rfl

theorem starts_started {j j' : Journal} {b : Machine Unit Unit} (hj : j' = j ++ [.started m b])
    (x : ModuleId) : j'.starts x = j.starts x + if x = m then 1 else 0 := by
  rw [hj, Journal.starts_append]
  by_cases e : x = m
  · subst e
    simp [Journal.starts, Entry.isStart]
  · simp [Journal.starts, Entry.isStart, e, Ne.symm e]

namespace Executes

/-- The body of a leaf is noted as the one that is running. -/
theorem coherent (hc : Conduct journal owner reserved hosts)
    (he : s.Executes journal owner reserved hosts m r s') (h : s.Coherent journal owner reserved o)
    (hhas : s.Has m)
    (hleaf : s.isCyclic m = false → (journal s.host).starts m = 0 ∧ o.leaf = some m)
    (hm : s.isCyclic m → s.Prepared (journal s.host) m) : s'.Coherent journal owner reserved o := by
  obtain ⟨host, hj, hp⟩ := he
  refine hp.coherent hc (h.setHost hj (fun x hx => ?_) (fun x hx => ?_) ?_) ?_
  · obtain rfl : x = m := by
      by_contra e
      refine hx ?_
      simp [Journal.starts, Entry.isStart, Ne.symm e]
    refine ⟨hhas, fun hcyc => ⟨?_, hleaf hcyc⟩⟩
    simp [Journal.starts, Entry.isStart]
  · cases List.mem_singleton.1 hx
  · rw [hj]
    refine h.logged.note fun x before e => ?_
    cases e
    exact hm
  · rw [show (s.setHost host).host = host from rfl, starts_started hj, if_pos rfl]
    exact Nat.succ_ne_zero _

theorem ran (hc : Conduct journal owner reserved hosts)
    (he : s.Executes journal owner reserved hosts m r s') (hs : (s.graph journal a).Sound)
    (hm : (s.graph journal a).Startable m) :
    (s.graph journal a).Ran m (s'.graph journal a) := by
  obtain ⟨host, hj, hp⟩ := he
  have hbegun := hs.begin s.outline hm
  have hcalm := calm_started s hj hbegun
  exact .started ((Quiet.refl s).calm hs) (hcalm.trans (hp.calm hc (hcalm.sound hbegun)))

theorem ended (hc : Conduct journal owner reserved hosts)
    (he : s.Executes journal owner reserved hosts m r s') (hr : r = .ok .completed) :
    (journal s'.host).starts m = (journal s.host).starts m + 1 ∧
      Entry.ended m ∈ journal s'.host := by
  obtain ⟨host, hj, hp⟩ := he
  refine ⟨?_, hp.ended hr⟩
  rw [hp.starts hc, show (s.setHost host).host = host from rfl, starts_started hj, if_pos rfl]

theorem noted (hc : Conduct journal owner reserved hosts)
    (he : s.Executes journal owner reserved hosts m r s') : ∃ k : Journal, k.Answers ∧
      journal s'.host = journal s.host ++
        (.started m s.outline :: k ++ Journal.closing m s'.nextError r) := by
  obtain ⟨h, hj, ⟨s₁, h', hcalls, rfl, hj'⟩, -⟩ := he
  obtain ⟨k, hk, hj₁⟩ := (quiet_of_calls hc.track hcalls).noted
  refine ⟨k, hk, hj'.trans ?_⟩
  rw [hj₁, show (s.setHost h).host = h from rfl, hj, List.append_assoc, List.append_assoc]
  rfl

theorem threw (he : s.Executes journal owner reserved hosts m r s') {e : Value}
    (hr : r = .error e) : s'.Throws journal m e := by
  obtain ⟨host, -, hp⟩ := he
  exact hp.threw hr

end Executes

structure Body (journal : σ → Journal) (owner : κ → ModuleId) (reserved : Set PromiseId) (o : Focus)
    (a : Agenda) (m : ModuleId) (s : Machine σ κ) (r : Except Value (Execution κ))
    (s' : Machine σ κ) : Prop where
  coherent : s'.Coherent journal owner reserved o
  ran : (s.graph journal a).Ran m (s'.graph journal a)
  ended : r = .ok .completed → (journal s'.host).starts m = (journal s.host).starts m + 1 ∧
    Entry.ended m ∈ journal s'.host
  threw : ∀ e, r = .error e → s'.Throws journal m e
  waits : ∀ p code, r = .ok (.waiting p code) →
    owner code = m ∧ s'.Made p ∧ (journal s'.host).starts m ≠ 0
  waited : ∀ p code, r = .ok (.waiting p code) → Entry.waited m s'.nextError ∈ journal s'.host ∧
    ∃ before, Entry.started m before ∈ journal s'.host ∧ before.hasAwait m = s.hasAwait m

theorem Executes.body (hc : Conduct journal owner reserved hosts)
    (he : s.Executes journal owner reserved hosts m r s') (h : s.Coherent journal owner reserved o)
    (hs : (s.graph journal a).Sound) (hm : (s.graph journal a).Startable m)
    (hp : s.isCyclic m → s.Prepared (journal s.host) m) :
    s.Body journal owner reserved o a m r s' where
  coherent := by
    refine he.coherent hc h (has_of_awake hm.awake) (fun hcyc => ?_) hp
    rw [isCyclic_of_awake hm.awake] at hcyc
    cases hcyc
  ran := he.ran hc hs hm
  ended := he.ended hc
  threw _ hr := he.threw hr
  waits p code hr := by
    obtain ⟨host, hj, hp⟩ := he
    refine ⟨(hp.waits p code hr).1, (hp.waits p code hr).2, ?_⟩
    rw [hp.starts hc, show (s.setHost host).host = host from rfl, starts_started hj, if_pos rfl]
    exact Nat.succ_ne_zero _
  waited p code hr := by
    obtain ⟨host, hj, hp⟩ := he
    refine ⟨hp.closing (by rw [hr]; exact List.mem_singleton_self _), s.outline,
      hp.noted hc ?_, rfl⟩
    change _ ∈ journal host
    rw [hj]
    exact List.mem_append_right _ (List.mem_singleton_self _)

theorem Coherent.unmoved (h : s.Coherent journal owner reserved o) (hu : s.Unmoved journal s') :
    s'.Coherent journal owner reserved o :=
  h.beside hu.toBeside rfl (h.wired.unmoved hu) (fun p hp => by rwa [Made, hu.size])
    (fun p x hp => by rw [settlement?_of_phase (hu.phase p), hp])
    fun p _ _ hd => undecided_of_phase (hu.phase p) hd

theorem quiet_of_unmoved (hu : s.Unmoved journal s') : s.Quiet journal s' :=
  .of_beside hu.toBeside fun p x hp => by rw [settlement?_of_phase (hu.phase p), hp]

theorem runBody_body (hc : Conduct journal owner reserved hosts) (hh : host ∈ hosts)
    (h : s.Coherent journal owner reserved o) (hl : ¬o.linking) (hs : (s.graph journal a).Sound)
    (hm : (s.graph journal a).Startable m) (hp : s.isCyclic m → s.Prepared (journal s.host) m)
    (hrun : runBody host m s = some (r, s')) : s.Body journal owner reserved o a m r s' := by
  have hfail : ∀ {r s'}, ¬(s.module m).kind.IsRunnable ∨ s.isCyclic m = false →
      (Act.fail .typeError "Module must be linked before it can be evaluated" :
        Act σ κ (Execution κ)) s = some (r, s') → s.Body journal owner reserved o a m r s' := by
    intro r s' hk e
    cases e
    have hu : s.Unmoved journal _ :=
      .newError s .typeError "Module must be linked before it can be evaluated"
    refine ⟨h.unmoved hu, .refused ((quiet_of_unmoved hu).calm hs), fun e => (nomatch e),
      fun e he hst => ?_, fun _ _ e => (nomatch e), fun _ _ e => nomatch e⟩
    -- What evaluation has touched is linked, so that it can run.
    obtain hk | hk := hk
    · exact (hk ((h.linked hl hst).runnable m (isLinked_of_awake hm.awake))).elim
    · rw [isCyclic_of_awake hm.awake] at hk
      cases hk
  rw [runBody, Act.view_bind] at hrun
  cases hk : (s.module m).kind with
  | source record env c =>
    rw [hk] at hrun
    exact (hc.execute host hh hrun).body hc h hs hm hp
  | foreign i c =>
    rw [hk] at hrun
    cases i with
    | true => exact (hc.executeForeign host hh hrun).body hc h hs hm hp
    | false =>
      refine hfail (.inl ?_) hrun
      rw [hk]
      exact Bool.false_ne_true
  | leaf state =>
    rw [hk] at hrun
    refine hfail (.inr ?_) hrun
    rw [isCyclic, cyclic?_eq, hk]
    rfl

theorem hasAwait_eq (s : Machine σ κ) (m : ModuleId) : s.hasAwait m = (s.cyclic m).hasAwait := by
  rw [hasAwait, cyclic]
  cases s.cyclic? m <;> rfl

/-- What running the body of a module without top-level await comes to. -/
theorem runSyncBody_body (hc : Conduct journal owner reserved hosts) (hh : host ∈ hosts)
    (h : s.Coherent journal owner reserved o) (hl : ¬o.linking) (hs : (s.graph journal a).Sound)
    (hm : (s.graph journal a).Startable m) (hp : s.isCyclic m → s.Prepared (journal s.host) m)
    (hawait : (s.cyclic m).hasAwait = false) {result : Except Value Unit}
    (hrun : runSyncBody host m s = some (result, s')) :
    s'.Coherent journal owner reserved o ∧ (s.graph journal a).Ran m (s'.graph journal a) ∧
      (result = .ok () → (journal s'.host).starts m = (journal s.host).starts m + 1 ∧
        Entry.ended m ∈ journal s'.host) ∧ ∀ e, result = .error e → s'.Throws journal m e := by
  rw [runSyncBody, throwing_bind] at hrun
  obtain ⟨execution, s₁, h₁, h₂⟩ | ⟨e, h₁, rfl⟩ := hrun
  · have hb := runBody_body hc hh h hl hs hm hp h₁
    cases execution with
    | completed =>
      cases h₂
      exact ⟨hb.coherent, hb.ran, fun _ => hb.ended rfl, fun _ e => nomatch e⟩
    | waiting p code =>
      cases h₂
      have hu : s₁.Unmoved journal _ :=
        .newError s₁ .syntaxError "await is only valid in modules with top-level await"
      have hs₁ : (s₁.graph journal a).Sound := hs.ran hb.ran hm
      refine ⟨hb.coherent.unmoved hu, hb.ran.trans ((quiet_of_unmoved hu).calm hs₁),
        fun e => (nomatch e), fun e he _ => ?_⟩
      cases he
      obtain ⟨hw, before, hst, hbefore⟩ := hb.waited p code rfl
      refine .inr (.inr ⟨before, s₁.nextError, hst, ?_, hw, rfl, ?_⟩)
      · rw [hbefore, hasAwait_eq, hawait]
      · exact Array.getElem?_push_size
  · have hb := runBody_body hc hh h hl hs hm hp h₁
    exact ⟨hb.coherent, hb.ran, fun e => (nomatch e), fun e' he => hb.threw e' (by cases he; rfl)⟩

/-! ## Bodies with top-level await -/

def attachBody (s : Machine σ κ) (host : Host σ κ) (m : ModuleId) : Machine σ κ :=
  s.newCapability.2.attach host.track s.nextPromise ⟨.bodyEnded m, none⟩

theorem attachBody_beside (hc : Conduct journal owner reserved hosts) (hh : host ∈ hosts)
    (s : Machine σ κ) (m : ModuleId) : s.Beside journal (s.attachBody host m) := by
  have ha := attached (hc.track host hh) s.newCapability.2 s.nextPromise ⟨.bodyEnded m, none⟩
  exact ⟨ha.modules, ha.nextTurn, ha.journal, ha.errors⟩

theorem phase_attachBody (hc : Conduct journal owner reserved hosts) (hh : host ∈ hosts)
    (hp : s.Made p) : ((s.attachBody host m).promise p).phase = (s.promise p).phase := by
  rw [attachBody, (attached (hc.track host hh) s.newCapability.2 s.nextPromise _).phase]
  exact congrArg _ ((promise_newPromise s _ p).trans (if_neg (ne_nextPromise hp)))

theorem settlement?_attachBody (hc : Conduct journal owner reserved hosts) (hh : host ∈ hosts)
    {y : Settlement} (hp : (s.promise p).settlement? = some y) :
    ((s.attachBody host m).promise p).settlement? = some y := by
  rw [settlement?_of_phase (phase_attachBody hc hh (made_of_resolved fun hu => ?_)), hp]
  rw [← PromiseState.phase_snd, hu] at hp
  cases hp

theorem Coherent.attachBody (hc : Conduct journal owner reserved hosts) (hh : host ∈ hosts)
    {excused : List ModuleId}
    (h : s.Coherent journal owner reserved { o with excused := m :: excused })
    (hm : s.MayTell excused m) (hbusy : o.busy = none) :
    (s.attachBody host m).Coherent journal owner reserved
      { o with excused, busy := some (m, s.nextPromise) } := by
  refine h.beside (attachBody_beside hc hh s m) rfl ?_ (fun p hp => ?_)
    (fun p y hp => settlement?_attachBody hc hh hp) fun p _ ⟨x, c, hx, hp⟩ hd => ?_
  · refine h.wired.bodyAttached (fun p ⟨x, c, hx, hp⟩ => hp ▸ (h.capable x c hx).2)
      (attached (hc.track host hh) s.newCapability.2 s.nextPromise _)
      (fun hx => hx.owed (List.mem_cons_self ..)) (fun x hx => ?_) (fun x hx => ?_) hbusy
    · obtain hx | rfl := hx
      · exact ⟨hx.begun, hx.failed, fun hmem => hx.owed (List.mem_cons_of_mem _ hmem)⟩
      · exact hm
    · obtain ⟨hturn, he, hp, hmem⟩ := hx
      exact or_iff_not_imp_right.2 fun hne =>
        ⟨hturn, he, hp, fun hx => (List.mem_cons.1 hx).elim hne hmem⟩
  · rw [Made, Machine.attachBody, (attached (hc.track host hh) s.newCapability.2 _ _).size]
    exact made_newPromise _ hp
  · exact undecided_of_phase (phase_attachBody hc hh (hp ▸ (h.capable x c hx).2)) hd

/-- What a body has come to is told by its promise, or the rest of the body waits. -/
theorem continueBody_changes (hc : Conduct journal owner reserved hosts) (hh : host ∈ hosts)
    (s : Machine σ κ) (m : ModuleId) (c : Capability) (r : Except Value (Execution κ)) :
    s.Settles journal (s.continueBody host m c r) c.promise ∨
      ∃ p code, s.Attached journal (s.continueBody host m c r) p ⟨.resumeBody m c code, none⟩ := by
  rcases r with e | ⟨⟩ | ⟨p, code⟩
  · exact .inl (reject_settles s (hc.track host hh) c e)
  · exact .inl (resolve_settles s (hc.track host hh) c .undefined)
  · exact .inr ⟨p, code, attached (hc.track host hh) s p _⟩

theorem quiet_continueBody (hc : Conduct journal owner reserved hosts) (hh : host ∈ hosts)
    (s : Machine σ κ) (m : ModuleId) (c : Capability) (r : Except Value (Execution κ)) :
    s.Quiet journal (s.continueBody host m c r) := by
  obtain hs | ⟨p, code, ha⟩ := continueBody_changes hc hh s m c r
  · exact .of_beside hs.beside fun p x hp => hs.settlement? hp
  · exact .of_beside ha.toBeside fun p x hp => by rw [settlement?_of_phase (ha.phase p), hp]

/-- The promise of a body is settled as the body has come to its end. -/
theorem Coherent.bodySettled (h : s.Coherent journal owner reserved o) {c : Capability}
    {y : Settlement} (hbusy : o.busy = some (m, c.promise))
    (he : ¬s.isSpent c → s.Ended journal s' c.promise y) (hspent : s.isSpent c → s' = s)
    (hy : s.MayEnd journal m y) :
    s'.Coherent journal owner reserved { o with busy := none } := by
  have hcarries := h.wired.running m c.promise hbusy
  have hother : ∀ q x, q ≠ c.promise → o.busy ≠ some (x, q) := fun q x hq e => by
    rw [hbusy] at e
    cases e
    exact hq rfl
  by_cases hs : s.isSpent c
  · rw [hspent hs]
    refine h.beside (.refl s) rfl ?_ (fun _ hp => hp) (fun _ _ hp => hp) fun _ _ _ hd => hd
    refine h.wired.idle fun q x hq x' hb => ?_
    obtain rfl : q = c.promise := by
      by_contra hne
      exact hother q x hne hq
    exact not_isSpent_of_undecided (h.wired.waits _ _ hb).1 hs
  · have hend := he hs
    refine h.beside hend.toBeside rfl ?_ (fun p hp => by rwa [Made, hend.size]) (fun p x hp => ?_)
      fun p _ hp hd => ?_
    · refine h.wired.ended hend (fun x hb => ?_) (.inr ⟨rfl, hother⟩)
      rw [hcarries.body x hb]
      exact hy
    · exact Settles.settlement? (.inr (.inl ⟨y, hend⟩)) hp
    · refine undecided_of_phase (hend.other p ?_) hd
      rintro rfl
      exact hcarries.answer hp

theorem Coherent.continueBody (hc : Conduct journal owner reserved hosts) (hh : host ∈ hosts)
    (h : s.Coherent journal owner reserved o) {c : Capability}
    (hbusy : o.busy = some (m, c.promise)) (hstrict : c.mustBeUnresolved = true)
    (hended : r = .ok .completed → Entry.ended m ∈ journal s.host)
    (hthrew : ∀ e, r = .error e → s.Throws journal m e)
    (hwaits : ∀ p code, r = .ok (.waiting p code) →
      owner code = m ∧ s.Made p ∧ (journal s.host).starts m ≠ 0) :
    (s.continueBody host m c r).Coherent journal owner reserved { o with busy := none } := by
  rcases r with e | ⟨⟩ | ⟨p, code⟩
  · refine h.bodySettled hbusy (reject_ended s (hc.track host hh) c) (fun hs => ?_) (hthrew e rfl)
    rw [Machine.continueBody, reject, if_pos hs]
  · have hend : ¬s.isSpent c → s.Ended journal (s.resolve host.track c .undefined) c.promise
        (.fulfilled .undefined) := resolve_ended s c fun q e => by cases e
    refine h.bodySettled hbusy hend (fun hs => ?_) (hended rfl)
    rw [Machine.continueBody, resolve, if_pos hs]
  · obtain ⟨howner, hmade, hstarts⟩ := hwaits p code rfl
    have ha : s.Attached journal (s.continueBody host m c (.ok (.waiting p code))) p _ :=
      attached (hc.track host hh) s p ⟨.resumeBody m c code, none⟩
    refine h.beside ha.toBeside rfl ?_ (fun q hq => by rwa [Made, ha.size])
      (fun q x hq => by rw [settlement?_of_phase (ha.phase q), hq])
      fun q _ _ hd => undecided_of_phase (ha.phase q) hd
    refine h.wired.attached ha (fun c e => by cases e) (fun x e => by cases e)
      (fun j k e => by cases e)
      (fun x c' code' e => ?_) (.inr ⟨rfl, fun q x _ e => ⟨code, ?_⟩⟩)
    · cases e
      exact ⟨hmade, h.wired.running m c.promise hbusy, howner, hstarts, hstrict⟩
    · have e' : o.busy = some (x, q) := e
      rw [hbusy] at e'
      cases e'
      obtain ⟨p', b⟩ := c
      cases hstrict
      rfl

/-- What starting the body of a module with top-level await comes to. -/
theorem startAsyncBody_body (hc : Conduct journal owner reserved hosts) (hh : host ∈ hosts)
    {excused : List ModuleId}
    (h : s.Coherent journal owner reserved { o with excused := m :: excused })
    (hl : ¬o.linking) (hs : (s.graph journal a).Sound)
    (hm : (s.graph journal a).Startable m) (hp : s.isCyclic m → s.Prepared (journal s.host) m)
    (htell : s.MayTell excused m) (hbusy : o.busy = none)
    (hrun : startAsyncBody host m s = some ((), s')) :
    s'.Coherent journal owner reserved { o with excused } ∧
      (s.graph journal a).Ran m (s'.graph journal a) := by
  rw [startAsyncBody, Run.make_bind, Run.update_bind, Run.bind_eq_some] at hrun
  obtain ⟨execution, s₂, h₂, h₃⟩ := hrun
  change runBody host m (s.attachBody host m) = some (execution, s₂) at h₂
  cases h₃
  have hbeside := attachBody_beside hc hh s m
  have hq : s.Quiet journal (s.attachBody host m) :=
    .of_beside hbeside fun p x hx => settlement?_attachBody hc hh hx
  have hcalm := hq.calm hs
  have hb := runBody_body hc hh (h.attachBody hc hh htell hbusy) hl (hcalm.sound hs)
    (hm.undisturbed hs hcalm.toUndisturbed) (fun hcyc => ?_) h₂
  · have hfocus : ({ o with excused, busy := none } : Focus) = { o with excused } := by rw [hbusy]
    refine ⟨hfocus ▸ hb.coherent.continueBody hc hh (c := ⟨s.nextPromise, true⟩) rfl rfl
      (fun e => (hb.ended e).2) hb.threw hb.waits, ?_⟩
    have hs₂ : (s₂.graph journal a).Sound :=
      (hcalm.sound hs).ran hb.ran (hm.undisturbed hs hcalm.toUndisturbed)
    exact (hb.ran.trans ((quiet_continueBody hc hh s₂ m _ execution).calm hs₂)).after hcalm
  · have hcyc' : s.isCyclic m := by
      rw [isCyclic, cyclic?, module, hbeside.modules] at hcyc
      exact hcyc
    rw [hbeside.journal]
    exact (hp hcyc').beside hbeside fun p x hx => settlement?_attachBody hc hh hx

end Machine

end ModuleGraph

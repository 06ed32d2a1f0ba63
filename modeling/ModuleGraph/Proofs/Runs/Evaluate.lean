import ModuleGraph.Proofs.Runs.Visit

/-! # Evaluations of a run

An evaluation makes the promise that answers for it and visits the module. Then the promise is told
how the visit has ended, unless the module waits for a body. Evaluations of the same cycle share
their promise. -/

namespace ModuleGraph

open Relation

variable {σ κ : Type} {journal : σ → Journal} {owner : κ → ModuleId} {reserved : Set PromiseId}
variable {hosts : Set (Host σ κ)} {host : Host σ κ}

def Focus.asking (known : Finding → Prop) (spare : PromiseId → Prop) (m : ModuleId)
    (c : Capability) : Focus := { Focus.rest known spare with late := [(m, c)] }

namespace Machine

variable {s s' : Machine σ κ} {o : Focus} {a : Agenda} {m x : ModuleId} {p : PromiseId}
variable {c : Capability} {known known' : Finding → Prop} {spare spare' : PromiseId → Prop}

structure Resting (journal : σ → Journal) (owner : κ → ModuleId) (reserved : Set PromiseId)
    (known : Finding → Prop) (spare : PromiseId → Prop) (s : Machine σ κ) : Prop where
  sound : (s.graph journal .rest).Sound
  coherent : s.Coherent journal owner reserved (.rest known spare)

/-- Whatever is found at the machine may be known, and other promises to be spare. -/
theorem Coherent.respare (h : s.Coherent journal owner reserved o)
    (hk : ∀ f, known' f → s.Shows journal f) (hs : ∀ p, spare' p → s.IsTarget p ∨ o.spare p) :
    s.Coherent journal owner reserved { o with known := known', spare := spare' } := by
  refine ⟨?_, h.leaves, h.visited, h.linked, h.capable, h.distinct, h.own, h.unasked, h.late, hk,
    fun m c hm hres => (h.tells m c hm hres).quiet rfl Iff.rfl (fun _ hv => hv) id, h.noted,
    h.logged⟩
  exact h.wired.weaken (fun _ => id) (fun _ _ hp => hp) (fun _ hm => hm) (fun _ _ hm => hm)
    (fun _ hm => hm) (fun _ hm => hm) rfl hs

theorem Resting.respare (h : s.Resting journal owner reserved known spare)
    (hk : ∀ f, known' f → s.Shows journal f) (hs : ∀ p, spare' p → s.IsTarget p ∨ spare p) :
    s.Resting journal owner reserved known' spare' :=
  ⟨h.sound, h.coherent.respare hk hs⟩

theorem Resting.recall (h : s.Resting journal owner reserved known spare)
    (hk : ∀ f, known' f → s.Shows journal f) : s.Resting journal owner reserved known' spare :=
  h.respare hk fun _ => .inr

/-! ## Asking -/

def ask (s : Machine σ κ) (m : ModuleId) : Machine σ κ :=
  s.newCapability.2.updateCyclic m fun x => { x with capability := some ⟨s.nextPromise, true⟩ }

theorem fields_ask (hm : s.Has m) (hc : s.isCyclic m) : (s.ask m).cyclic =
    Function.update s.cyclic m { s.cyclic m with capability := some ⟨s.nextPromise, true⟩ } :=
  fields_updateCyclic (s := s.newCapability.2) hm hc _

theorem field_ask {β : Type} (φ : Cyclic → β) (hφ : ∀ c k, φ { c with capability := k } = φ c) :
    φ ((s.ask m).cyclic x) = φ (s.cyclic x) :=
  field_updateCyclic (s := s.newCapability.2) φ fun c => hφ c _

theorem isCyclic_ask (s : Machine σ κ) (m x : ModuleId) : (s.ask m).isCyclic x = s.isCyclic x :=
  isCyclic_updateCyclic s.newCapability.2 m x _

theorem leaf?_ask (s : Machine σ κ) (m x : ModuleId) :
    ((s.ask m).module x).kind.leaf? = (s.module x).kind.leaf? :=
  leaf?_updateCyclic s.newCapability.2 m x _

theorem promise_ask (s : Machine σ κ) (m : ModuleId) (p : PromiseId) : (s.ask m).promise p =
    if p = s.nextPromise then .pending [] false else s.promise p := promise_newPromise s _ p

theorem settlement?_ask {y : Settlement} (h : (s.promise p).settlement? = some y) :
    ((s.ask m).promise p).settlement? = some y := by
  rw [promise_ask, if_neg (ne_nextPromise (made_of_resolved fun hu => ?_)), h]
  rw [← PromiseState.phase_snd, hu] at h
  cases h

theorem throws_ask {e : Value} (h : s.Throws journal x e) : (s.ask m).Throws journal x e :=
  h.mono ⟨[], (List.append_nil _).symm⟩ (.refl s)

theorem isLinked_ask (s : Machine σ κ) (m x : ModuleId) :
    ((s.ask m).status x).IsLinked ↔ (s.status x).IsLinked :=
  isLinked_updateCyclic (s := s.newCapability.2) (m := m)
    (f := fun x => { x with capability := some ⟨s.nextPromise, true⟩ }) (fun _ _ => .rfl) x

theorem LinkClosed.ask (h : s.LinkClosed journal) (m : ModuleId) :
    (s.ask m).LinkClosed journal := by
  have h' : s.newCapability.2.LinkClosed journal :=
    h.mono (fun _ => .rfl) (fun _ _ => id) (fun _ _ => rfl) (fun _ _ => id) fun _ => id
  refine h'.updateCyclic m (fun _ => rfl) ?_
  exact fun _ _ => .inr ⟨rfl, rfl, rfl⟩

/-- A module that nobody has asked for is asked for: whatever was found stays true. -/
theorem shows_ask (hm : (s.cyclic m).capability = none) {f : Finding}
    (hf : s.Shows journal f) : (s.ask m).Shows journal f := by
  have hfield := fun (β : Type) (φ : Cyclic → β) hφ x => field_ask (s := s) (m := m) (x := x) φ hφ
  cases f with
  | made x requested =>
    exact ⟨(has_updateCyclic (s := s.newCapability.2) _).2 hf.1,
      (hfield _ (·.requested) (fun _ _ => rfl) x).trans hf.2⟩
  | settled p y => exact settlement?_ask hf
  | answered x c =>
    have hx : x ≠ m := by
      rintro rfl
      cases hm.symm.trans hf
    exact (congrArg Cyclic.capability (cyclic_updateCyclic_of_ne _ hx)).trans hf
  | rooted x q => exact (hfield _ (·.root) (fun _ _ => rfl) x).trans hf
  | failed x e => exact (hfield _ (·.error) (fun _ _ => rfl) x).trans hf
  | kept x p => exact (leaf?_ask s m x).trans hf
  | spared x e =>
    intro e' he
    rw [hfield _ (·.error) fun _ _ => rfl] at he
    rw [hfield _ (·.root) fun _ _ => rfl]
    exact hf e' he
  | noted entry => exact hf

theorem calm_ask (hs : (s.graph journal a).Sound) :
    (s.graph journal a).Calm ((s.ask m).graph journal a) := by
  have hfield := fun (β : Type) (φ : Cyclic → β) hφ x => field_ask (s := s) (m := m) (x := x) φ hφ
  exact
    { noted := fun _ he => he
      leaf := fun x ⟨p, v, hk, hv⟩ => ⟨p, v, (leaf?_ask s m x).trans hk, settlement?_ask hv⟩
      threw := fun x e ht => throws_ask ht
      requested := fun x r hr => by
        change r ∈ ((s.ask m).cyclic x).requested
        rw [hfield _ (·.requested) fun _ _ => rfl]
        exact hr
      idle := fun x hi => by
        obtain ⟨⟨he, hr, ho, hp⟩, hstarts⟩ := (hs.shaped x).idle hi
        refine ⟨?_, ⟨?_, ?_, ?_, ?_⟩, fun hc => hstarts ?_⟩
        · change ((s.ask m).cyclic x).status.IsIdle
          rwa [hfield _ (·.status) fun _ _ => rfl]
        · exact (hfield _ (·.error) (fun _ _ => rfl) x).trans he
        · exact (hfield _ (·.root) (fun _ _ => rfl) x).trans hr
        · exact (hfield _ (·.order) (fun _ _ => rfl) x).trans ho
        · exact (hfield _ (·.parents) (fun _ _ => rfl) x).trans hp
        · rw [show (s.graph journal a).cyclic x = (s.isCyclic x = true) from rfl,
            ← isCyclic_ask s m]
          exact hc
      awake := fun x hi => by
        refine ⟨⟨(s.cyclic x).ancestor, ((s.ask m).cyclic x).capability, ?_⟩, rfl⟩
        by_cases e : x = m
        · subst e
          change (s.ask x).cyclic x = _
          rw [fields_ask (has_of_awake hi) (isCyclic_of_awake hi), Function.update_self]
          rfl
        · change (s.ask m).cyclic x =
            { s.cyclic x with capability := ((s.ask m).cyclic x).capability }
          rw [ask, cyclic_updateCyclic_of_ne _ e]
          rfl
      size := by
        change s.modules.size ≤ (s.ask m).modules.size
        simp [ask, updateCyclic, updateKind, newCapability, newPromise]
      nextTurn := rfl
      stack := rfl
      ready := rfl
      released := rfl
      debt := rfl
      doom := rfl
      path := rfl
      visits := rfl
      ancestor := fun x _ => hfield _ (·.ancestor) (fun _ _ => rfl) x }

section Ask

variable (hm : s.Has m) (hc : s.isCyclic m)
include hm hc

theorem capability_ask_self : ((s.ask m).cyclic m).capability = some ⟨s.nextPromise, true⟩ := by
  rw [fields_ask hm hc, Function.update_self]

theorem cyclic_ask_of_ne (hx : x ≠ m) : (s.ask m).cyclic x = s.cyclic x := by
  rw [fields_ask hm hc, Function.update_of_ne hx]

theorem capability_ask {d : Capability} (hx : ((s.ask m).cyclic x).capability = some d) :
    x = m ∧ d = ⟨s.nextPromise, true⟩ ∨ x ≠ m ∧ (s.cyclic x).capability = some d := by
  by_cases e : x = m
  · subst e
    exact .inl ⟨rfl, Option.some.inj (hx.symm.trans (capability_ask_self hm hc))⟩
  · exact .inr ⟨e, cyclic_ask_of_ne hm hc e ▸ hx⟩

theorem Coherent.wired_ask (h : s.Coherent journal owner reserved (.rest known spare)) :
    (s.ask m).Wired owner ((s.ask m).circuit journal reserved (.asking known' spare m c)) := by
  have hfield := fun (β : Type) (φ : Cyclic → β) hφ x => field_ask (s := s) (m := m) (x := x) φ hφ
  have hw : s.Wired owner ((s.ask m).circuit journal reserved (.asking known' spare m c)) := by
    refine h.wired.weaken (fun _ => id) (fun q hq ⟨y, d, hy, hd⟩ => ?_) (fun _ hy => hy)
      (fun _ _ hy => hy) (fun y hy => ?_) (fun y hy => ?_) rfl fun _ hq => .inr hq
    · obtain ⟨-, rfl⟩ | ⟨-, hy⟩ := capability_ask hm hc hy
      · exact (ne_nextPromise hq hd.symm).elim
      · exact ⟨y, d, hy, hd⟩
    · obtain ⟨⟨hyc, ho, hp⟩, hf, hx⟩ := hy
      rw [← hfield _ (·.order) fun _ _ => rfl] at ho hp hf
      rw [← hfield _ (·.error) fun _ _ => rfl] at hp hf
      rw [← hfield _ (·.pending) fun _ _ => rfl] at hp
      exact ⟨⟨by rwa [isCyclic_ask], ho, hp⟩, hf, hx⟩
    · have hy' : (s.ask m).Due [] y := hy
      rwa [Due, hfield _ (·.order) fun _ _ => rfl, hfield _ (·.error) fun _ _ => rfl,
        hfield _ (·.pending) fun _ _ => rfl] at hy'
  have hnew : (s.newPromise (.pending [] false)).2.Wired owner _ := hw.newPromise rfl
  exact hnew.aside (fun _ hq => hq) (fun _ _ _ => rfl) (fun _ _ => Iff.rfl) rfl (Nat.le_refl _)
    (fun _ _ => Iff.rfl) fun _ hq => .inl hq

theorem Coherent.tells_ask (h : s.Coherent journal owner reserved (.rest known spare))
    {d : Capability} (hx : ((s.ask m).cyclic x).capability = some d) (hres : d.promise ∈ reserved) :
    Tells (.asking known' spare m c) (s.ask m) x d.promise := by
  obtain ⟨rfl, rfl⟩ | ⟨e, hy⟩ := capability_ask hm hc hx
  · have hlate : (Focus.asking known' spare x c).IsLate x := ⟨_, List.mem_singleton_self _⟩
    refine ⟨fun _ => ?_, fun hn => (hn hlate).elim, fun hn => (hn hlate).elim⟩
    rw [Undecided, promise_ask, if_pos rfl]
    rfl
  · have hl : (Focus.asking known' spare m c).IsLate x ↔ (Focus.rest known spare).IsLate x :=
      iff_of_false (fun hl => e (congrArg Prod.fst (List.mem_singleton.1 hl.choose_spec)))
        fun hl => List.not_mem_nil hl.choose_spec
    refine (h.tells x d hy hres).quiet (cyclic_ask_of_ne hm hc e) hl
      (fun v hv => settlement?_ask hv) fun hd => ?_
    rw [Undecided, promise_ask, if_neg (ne_nextPromise (h.capable x d hy).2)]
    exact hd

theorem Coherent.ask (h : s.Coherent journal owner reserved (.rest known spare))
    (hnone : (s.cyclic m).capability = none)
    (hroot : (s.cyclic m).root = none ∨ (s.cyclic m).root = some m) :
    (s.ask m).Coherent journal owner reserved
      (.asking (fun f => known f ∨ f = .answered m ⟨s.nextPromise, true⟩) spare m
        ⟨s.nextPromise, true⟩) where
  wired := h.wired_ask hm hc
  leaves y q hy := by
    rw [leaf?_ask] at hy
    obtain ⟨v, hv, he⟩ := h.leaves y q hy
    exact ⟨v, settlement?_ask hv, fun e hr => throws_ask (he e hr)⟩
  visited y hy := by
    obtain ⟨hhas, hleaf⟩ := h.visited y hy
    refine ⟨(has_updateCyclic (s := s.newCapability.2) _).2 hhas, fun hyc => ?_⟩
    rw [isCyclic_ask] at hyc
    rw [leaf?_ask]
    exact hleaf hyc
  linked _ hs := (h.linked id hs).ask m
  capable y d hy := by
    obtain ⟨-, rfl⟩ | ⟨-, hy⟩ := capability_ask hm hc hy
    · exact ⟨rfl, made_newCapability s⟩
    · exact ⟨(h.capable y d hy).1, made_newPromise _ (h.capable y d hy).2⟩
  distinct y z d d' hy hz e := by
    obtain ⟨hym, rfl⟩ | ⟨-, hy⟩ := capability_ask hm hc hy <;>
      obtain ⟨hzm, rfl⟩ | ⟨-, hz⟩ := capability_ask hm hc hz
    · rw [hym, hzm]
    · exact (ne_nextPromise (h.capable z d' hz).2 e.symm).elim
    · exact (ne_nextPromise (h.capable y d hy).2 e).elim
    · exact h.distinct y z d d' hy hz e
  own y d hy := by
    rw [field_ask (·.root) fun _ _ => rfl]
    obtain ⟨rfl, -⟩ | ⟨-, hy⟩ := capability_ask hm hc hy
    · exact hroot
    · exact h.own y d hy
  unasked y hy := by
    by_cases e : y = m
    · exact .inr ⟨_, List.mem_singleton.2 (by rw [e])⟩
    · rw [cyclic_ask_of_ne hm hc e] at hy ⊢
      exact .inl ((h.unasked y hy).resolve_right fun ⟨_, hl⟩ => nomatch hl)
  late y d hy := by
    cases List.mem_singleton.1 hy
    exact capability_ask_self hm hc
  known f hf := by
    obtain hf | rfl := hf
    · exact shows_ask hnone (h.known f hf)
    · exact capability_ask_self hm hc
  tells _ _ hy hres := h.tells_ask hm hc hy hres
  noted := h.noted
  logged := h.logged

end Ask

/-! ## The end of an evaluation -/

variable {t : Traversal} {path : List Frame} {e : Value}

theorem sound_rest (h : (s.graph journal (.search t path)).Sound) (ht : t.stack = []) :
    (s.graph journal .rest).Sound := by
  have hg : s.graph journal .rest = { s.graph journal (.search t path) with
      path := [], visits := 0, ready := [], released := [], debt := [], doom := [] } := by
    simp only [graph, Agenda.rest, Agenda.search, ht]
  rw [hg]
  exact h.beside (fun _ _ _ _ hx => .inr hx) h.balanced (fun _ hx _ => hx) h.running

theorem Coherent.resolved (hc : Conduct journal owner reserved hosts) (hh : host ∈ hosts)
    (h : s.Coherent journal owner reserved o) {late : List (ModuleId × Capability)}
    (hl : o.late = (m, c) :: late) (hlate : ∀ d, (m, d) ∉ late)
    (hm : (s.cyclic m).status = .evaluated) (he : (s.cyclic m).error = none) :
    (s.resolve host.track c .undefined).Coherent journal owner reserved { o with late } := by
  refine h.told hl hlate hm (resolve_settles s (hc.track host hh) c .undefined) fun hd =>
    ⟨.fulfilled .undefined, ?_, .inl ⟨he, _, rfl⟩⟩
  exact resolve_ended s c (fun _ e => nomatch e) (not_isSpent_of_undecided hd)

theorem Coherent.rejected (hc : Conduct journal owner reserved hosts) (hh : host ∈ hosts)
    (h : s.Coherent journal owner reserved o) {late : List (ModuleId × Capability)}
    (hl : o.late = (m, c) :: late) (hlate : ∀ d, (m, d) ∉ late)
    (hm : (s.cyclic m).status = .evaluated) (he : (s.cyclic m).error = some e) :
    (s.reject host.track c e).Coherent journal owner reserved { o with late } :=
  h.told hl hlate hm (reject_settles s (hc.track host hh) c e) fun hd =>
    ⟨.rejected e, reject_ended s (hc.track host hh) c (not_isSpent_of_undecided hd),
      .inr ⟨e, he, rfl⟩⟩

theorem Settles.quiet (h : s.Settles journal s' p) : s.Quiet journal s' :=
  .of_beside h.beside fun _ _ hq => h.settlement? hq

/-- Every open module blames what the one being visited blames. -/
theorem Visiting.blame_open (h : s.Visiting journal owner reserved o t path)
    (he : ∀ f ∈ path.head?, s.Blames journal f.module e) :
    ∀ x ∈ t.stack, (s.graph journal (.search t path)).Blames x e := by
  cases path with
  | nil =>
    intro x hx
    rw [show t.stack = [] from h.searching.search.stack_eq_nil] at hx
    cases hx
  | cons f path => exact h.searching.blames rfl (he f rfl)

def failAll (s : Machine σ κ) (stack : List ModuleId) (e : Value) : Machine σ κ :=
  stack.foldl (fun s x => s.updateCyclic x (·.fail e)) s

theorem refields_failAll (s : Machine σ κ) (stack : List ModuleId) (e : Value) :
    s.Refields (s.failAll stack e) := by
  refine .foldl s ?_ _
  exact fun _ => ⟨rfl, rfl⟩

theorem field_failAll {β : Type} (φ : Cyclic → β) (hφ : ∀ c, φ (Cyclic.fail c e) = φ c)
    (stack : List ModuleId) (x : ModuleId) :
    φ ((s.failAll stack e).cyclic x) = φ (s.cyclic x) :=
  field_foldl_updateCyclic (s := s) (n := x) φ hφ stack

section Abandon

variable (h : s.Visiting journal owner reserved o t path)
include h

theorem Visiting.fields_failAll (x : ModuleId) : (s.failAll t.stack e).cyclic x =
    if x ∈ t.stack then (s.cyclic x).fail e else s.cyclic x := by
  refine fields_foldl_updateCyclic (·.fail e) h.searching.search.nodup (fun x hx => ?_) x
  have hi : ¬(s.cyclic x).status.IsIdle := Status.awake_of_evaluating ((h.open_iff x).2 hx)
  exact ⟨has_of_awake hi, isCyclic_of_awake hi⟩

theorem Visiting.failAll_of_mem (hx : x ∈ t.stack) :
    (s.failAll t.stack e).cyclic x = (s.cyclic x).fail e := (h.fields_failAll x).trans (if_pos hx)

theorem Visiting.failAll_of_not_mem (hx : x ∉ t.stack) :
    (s.failAll t.stack e).cyclic x = s.cyclic x := (h.fields_failAll x).trans (if_neg hx)

theorem Visiting.sound_failAll (he : ∀ f ∈ path.head?, s.Blames journal f.module e) :
    ((s.failAll t.stack e).graph journal .rest).Sound := by
  have hs : ((s.failAll t.stack e).graph journal (.search ⟨[], t.visits⟩ [])).Sound := by
    rw [(refields_failAll s t.stack e).graph_eq, funext h.fields_failAll, failAll,
      nextTurn_foldl_updateCyclic]
    exact h.searching.toSound.abandon h.searching.alone.ready (h.blame_open he)
  exact sound_rest hs rfl

/-- An open module is late, so that its promise is undecided still. -/
theorem Visiting.tells_failAll (hx : ((s.failAll t.stack e).cyclic x).capability = some c)
    (hres : c.promise ∈ reserved) :
    Tells { o with known := known' } (s.failAll t.stack e) x c.promise := by
  have hr := refields_failAll s t.stack e
  rw [field_failAll (·.capability) fun _ => rfl] at hx
  have ht := h.coherent.tells x c hx hres
  by_cases hxs : x ∈ t.stack
  · have hl : o.IsLate x := (h.untold (.inr ((h.open_iff x).2 hxs))).resolve_left fun hn => by
      rw [hn] at hx
      cases hx
    refine ⟨fun _ => ?_, fun hn => (hn hl).elim, fun hn => (hn hl).elim⟩
    rw [Undecided, hr.promise_eq]
    exact ht.waiting (.inl hl)
  · exact ht.quiet (h.failAll_of_not_mem hxs) Iff.rfl (fun v hv => by rw [hr.promise_eq, hv])
      fun hd => by rwa [Undecided, hr.promise_eq]

theorem Visiting.coherent_failAll (e : Value) : (s.failAll t.stack e).Coherent journal owner
    reserved { o with known := fun f => o.known f ∧ f.Bears e } := by
  have hr := refields_failAll s t.stack e
  have hroot : ∀ x, ((s.failAll t.stack e).cyclic x).root = (s.cyclic x).root :=
    field_failAll (·.root) (fun _ => rfl) t.stack
  have hin : ∀ {x}, x ∈ t.stack → (s.failAll t.stack e).cyclic x = (s.cyclic x).fail e :=
    h.failAll_of_mem
  have hout : ∀ {x}, x ∉ t.stack → (s.failAll t.stack e).cyclic x = s.cyclic x :=
    h.failAll_of_not_mem
  refine h.coherent.refields hr (fun x ⟨⟨hc, ho, hp⟩, hf, hx⟩ => ?_) (fun x hx => ?_) rfl
    (fun _ hp => hp) rfl (fun hl hst => ?_)
    (fun f hf => hr.shows (fun x q hx => (hroot x).trans hx) (fun x => ?_)
      (h.coherent.known f hf.1)) (fun x c hx => ?_) (fun x hx => ?_) h.coherent.late
    fun x c hx => h.tells_failAll
      ((field_failAll (·.capability) (fun _ => rfl) t.stack x).trans hx)
  · have horder := field_failAll (s := s) (·.order) (fun _ => rfl) (e := e) t.stack x
    refine ⟨⟨by rwa [hr.isCyclic], by rwa [horder], ?_⟩, fun hd => ?_, hx⟩
    · by_cases hx : x ∈ t.stack
      · rw [hin hx]
        exact fun _ he => nomatch he
      · rwa [hout hx]
    · by_cases hx : x ∈ t.stack
      · rw [hin hx]
        exact fun he => nomatch he
      · rw [hout hx] at hd ⊢
        exact hf hd
  · have hxs : x ∉ t.stack := fun hxs => by
      have he := hx.2.1
      rw [hin hxs] at he
      cases he
    rwa [Due, hout hxs] at hx
  · refine LinkClosed.foldl (f := (·.fail e)) (fun _ => rfl) (fun _ _ => trivial) _
      (h.coherent.linked hl hst) fun x hx => isLinked_of_awake ?_
    rw [(h.open_iff x).2 hx]
    exact id
  · by_cases hx : x ∈ t.stack
    · have he := ((h.searching.shaped x).opened ((h.open_iff x).2 hx)).1
      refine .inr ⟨he, .inr ?_⟩
      rintro e' rfl
      rw [hin hx, show e' = e from hf.2]
      rfl
    · exact .inl (by rw [hout hx])
  · rw [hroot]
    exact h.coherent.own x c hx
  · by_cases hxs : x ∈ t.stack
    · rw [hin hxs] at hx
      obtain hx | hx := hx
      · exact hx.elim
      · cases hx
    · rw [hout hxs] at hx
      exact h.coherent.unasked x hx

end Abandon

/-- The promise of an evaluation that has returned is told at once, unless the module waits. -/
theorem finishEvaluation_ok (hc : Conduct journal owner reserved hosts) (hh : host ∈ hosts)
    (h : s.Visiting journal owner reserved (.asking known spare m c) t [])
    (hm : (s.cyclic m).status = .evaluatingAsync ∨ (s.cyclic m).status = .evaluated)
    (he : (s.cyclic m).error = none) (stack : List ModuleId) :
    (s.finishEvaluation host m c (.ok ()) stack).Resting journal owner reserved known spare := by
  have hawake : ¬(s.cyclic m).status.IsIdle := by
    obtain hm | hm := hm <;> rw [hm] <;> exact id
  have hstatus := status_of_isCyclic (isCyclic_of_awake hawake)
  have hsound : (s.graph journal .rest).Sound :=
    sound_rest h.searching.toSound h.searching.search.stack_eq_nil
  rw [finishEvaluation, hstatus]
  split
  · rename_i hm
    have hs := resolve_settles s (hc.track host hh) c .undefined
    exact ⟨hs.quiet.sound hsound, h.coherent.resolved hc hh rfl (fun _ hd => nomatch hd) hm he⟩
  · rename_i hn
    exact ⟨hsound, h.coherent.untoldYet rfl (hm.resolve_right hn)⟩

/-- The promise of an evaluation that threw is rejected. -/
theorem finishEvaluation_error (hc : Conduct journal owner reserved hosts) (hh : host ∈ hosts)
    (h : s.Visiting journal owner reserved (.asking known spare m c) t path)
    (he : ∀ f ∈ path.head?, s.Blames journal f.module e)
    (hm : m ∈ t.stack ∨ (s.cyclic m).status = .evaluated ∧ (s.cyclic m).error = some e) :
    (s.finishEvaluation host m c (.error e) t.stack).Resting journal owner reserved
      (fun f => known f ∧ f.Bears e) spare := by
  have hfailed : ((s.failAll t.stack e).cyclic m).status = .evaluated ∧
      ((s.failAll t.stack e).cyclic m).error = some e := by
    rw [h.fields_failAll]
    split
    · exact ⟨rfl, rfl⟩
    · exact hm.resolve_left ‹_›
  have hs := reject_settles (s.failAll t.stack e) (hc.track host hh) c e
  exact ⟨hs.quiet.sound (h.sound_failAll he), (h.coherent_failAll e).rejected hc hh rfl
    (fun _ hd => nomatch hd) hfailed.1 hfailed.2⟩

/-- A module that nobody has asked for before may be visited. -/
theorem Resting.visitable_ask (h : s.Resting journal owner reserved known spare) (hm : s.Has m)
    (hcyc : s.isCyclic m) (hnone : (s.cyclic m).capability = none)
    (hroot : (s.cyclic m).root = none ∨ (s.cyclic m).root = some m)
    (hlinked : (s.status m).IsLinked) :
    (s.ask m).Visitable journal owner reserved
      (.asking (fun f => known f ∨ f = .answered m ⟨s.nextPromise, true⟩) spare m
        ⟨s.nextPromise, true⟩) [] m ⟨[], 0⟩ where
  visiting := by
    have hcoh := h.coherent.ask hm hcyc hnone hroot
    have hsound : ((s.ask m).graph journal (.search ⟨[], 0⟩ [])).Sound :=
      (calm_ask h.sound).sound h.sound
    exact ⟨hsound.searching ⟨rfl, rfl, rfl, rfl⟩ rfl rfl, hcoh, ⟨rfl, rfl, id⟩,
      fun _ _ hx => (nomatch hx), fun _ _ _ => ⟨rfl, rfl⟩⟩
  has := (has_updateCyclic (s := s.newCapability.2) _).2 hm
  edge _ hf := nomatch hf
  linked _ := (isLinked_ask s m m).2 hlinked
  late _ := fun ⟨_, hl⟩ _ => congrArg Prod.fst (List.mem_singleton.1 hl)

theorem Coherent.isCyclic_asked (h : s.Coherent journal owner reserved (.asking known spare m c)) :
    s.isCyclic m := by
  by_contra hn
  have hcap := h.late m c (List.mem_singleton_self _)
  rw [cyclic_of_not_isCyclic (Bool.eq_false_of_not_eq_true hn)] at hcap
  cases hcap

/-- The visit of the module that was asked for has returned: its cycle is closed. -/
theorem Arrived.asked (h : s.Arrived journal owner reserved (.asking known spare m c) [] m t) :
    s.Visiting journal owner reserved (.asking known spare m c) t [] ∧
      ((s.cyclic m).status = .evaluatingAsync ∨ (s.cyclic m).status = .evaluated) ∧
      (s.cyclic m).error = none := by
  cases h with
  | leaf h hl _ =>
    rw [h.coherent.isCyclic_asked] at hl
    cases hl
  | opened h ho =>
    have hmem := (h.open_iff m).1 ho
    rw [show t.stack = [] from h.searching.search.stack_eq_nil] at hmem
    cases hmem
  | closed h hst he => exact ⟨h, hst, he⟩
  | left h _ hlow => exact (Nat.lt_irrefl _ (h.searching.search.low_eq_of_first ▸ hlow)).elim

theorem startEvaluation_ends (hc : Conduct journal owner reserved hosts) (hh : host ∈ hosts)
    (h : s.Resting journal owner reserved known spare) (hm : s.Has m) (hcyc : s.isCyclic m)
    (hnone : (s.cyclic m).capability = none)
    (hroot : (s.cyclic m).root = none ∨ (s.cyclic m).root = some m)
    (hlinked : (s.status m).IsLinked) (hrun : startEvaluation host m s = some (p, s')) :
    ∃ e, s'.Resting journal owner reserved
      (fun f => (known f ∨ f = .answered m ⟨p, true⟩) ∧ f.Bears e) spare := by
  rw [startEvaluation, Run.make_bind, Run.update_bind, Run.bind_eq_some] at hrun
  obtain ⟨⟨result, t⟩, s₁, hvisit, hrest⟩ := hrun
  cases hrest
  have hv := h.visitable_ask hm hcyc hnone hroot hlinked
  have hends := visitEvaluation_ends hc hh rfl host.depth m [] ⟨[], 0⟩ t (s.ask m) s₁ result
    hv.visiting hv.has hv.edge hv.linked hv.late hvisit
  cases result with
  | ok u =>
    obtain ⟨h₁, hst, he⟩ := hends.2.asked
    have hend := finishEvaluation_ok hc hh h₁ hst he t.stack
    exact ⟨.undefined, hend.recall fun f hf => hend.coherent.known f hf.1⟩
  | error e =>
    obtain ⟨⟨above, h₁, he⟩, hfailed⟩ := hends
    refine ⟨e, finishEvaluation_error hc hh h₁ he
      (hfailed.imp id fun hf => hf.resolve_left fun hl => ?_)⟩
    rw [isCyclic_ask, hcyc] at hl
    cases hl

/-! ## Evaluating any module -/

/-- The promise answers for the evaluation of a module: that of the module itself or of the root of
its cycle, or a leaf keeps it. -/
def AnsweredBy (s : Machine σ κ) (m : ModuleId) (p : PromiseId) : Prop :=
  (s.module m).kind.leaf? = some (.evaluated p) ∨
    ∃ q c, (s.cyclic q).capability = some c ∧ c.promise = p ∧
      (q = m ∨ (s.cyclic m).root = some q)

/-- Findings are kept, but an evaluation may fail modules with one value. -/
def Bearing (journal : σ → Journal) (owner : κ → ModuleId) (reserved : Set PromiseId)
    (known : Finding → Prop) (spare : PromiseId → Prop) (s : Machine σ κ) : Prop :=
  ∃ e, s.Resting journal owner reserved (fun f => known f ∧ f.Bears e) spare

theorem Resting.bearing (h : s.Resting journal owner reserved known spare) :
    s.Bearing journal owner reserved known spare :=
  ⟨.undefined, h.recall fun f hf => h.coherent.known f hf.1⟩

theorem Bearing.resting (h : s.Bearing journal owner reserved known spare)
    (hk : ∀ f, known f → f.IsLasting) : s.Resting journal owner reserved known spare := by
  obtain ⟨e, he⟩ := h
  exact he.recall fun f hf => he.coherent.known f ⟨hf, hk f hf e⟩

theorem Bearing.mono (h : s.Bearing journal owner reserved known spare)
    (hs : ∀ p, spare' p → spare p) : s.Bearing journal owner reserved known spare' := by
  obtain ⟨e, he⟩ := h
  exact ⟨e, he.respare he.coherent.known fun p hp => .inr (hs p hp)⟩

structure Evaluation (journal : σ → Journal) (owner : κ → ModuleId) (reserved : Set PromiseId)
    (known : Finding → Prop) (spare : PromiseId → Prop) (m : ModuleId) (s : Machine σ κ)
    (p : PromiseId) (s' : Machine σ κ) : Prop where
  resting : s'.Bearing journal owner reserved known spare
  /-- A module that was not linked is refused. -/
  answered : s'.AnsweredBy m p ∨
    ¬(s.status m).IsLinked ∧ ∃ e, (s'.promise p).settlement? = some (.rejected e)

/-- A module whose evaluation is refused was not linked: no evaluation is going on. -/
theorem Resting.not_isLinked_of_refusal? (h : s.Resting journal owner reserved known spare)
    (hcyc : s.isCyclic m) {message : String} (hr : refusal? (s.status m) = some message) :
    ¬(s.status m).IsLinked := fun hl => by
  cases hst : s.status m with
  | unlinked | linking => exact (hst ▸ hl).elim
  | evaluating =>
    rw [status_of_isCyclic hcyc] at hst
    exact nomatch (h.sound.open_iff m).1 hst
  | linked | evaluatingAsync | evaluated =>
    rw [hst] at hr
    cases hr

/-- The promise of a module, which may have to be asked for, answers for the whole cycle that the
module is the root of. -/
theorem Resting.answer_ends (hc : Conduct journal owner reserved hosts) (hh : host ∈ hosts)
    (h : s.Resting journal owner reserved known spare) {q : ModuleId} (hm : s.Has q)
    (hcyc : s.isCyclic q) (hlinked : (s.status q).IsLinked)
    (hroot : (s.cyclic q).root = none ∨ (s.cyclic q).root = some q)
    (hqm : q = m ∨ (s.cyclic m).root = some q)
    (hrun : (do
      match ← Run.view fun s => (s.cyclic q).capability with
      | some c => pure c.promise
      | none => startEvaluation host q : Run σ κ PromiseId) s = some (p, s')) :
    s.Evaluation journal owner reserved known spare m p s' := by
  rw [Run.view_bind] at hrun
  cases hcap : (s.cyclic q).capability with
  | some d =>
    rw [hcap] at hrun
    simp only [Run.pure_apply, Option.some.injEq, Prod.mk.injEq] at hrun
    obtain ⟨rfl, rfl⟩ := hrun
    exact ⟨h.bearing, .inl (.inr ⟨q, d, hcap, rfl, hqm⟩)⟩
  | none =>
    rw [hcap] at hrun
    obtain ⟨e, hend⟩ := startEvaluation_ends hc hh (h.recall fun _ => id) hm hcyc hcap hroot
      hlinked hrun
    have hkept : ∀ f, s.Shows journal f → f.Bears e → s'.Shows journal f := fun f hf hb =>
      hend.coherent.known f ⟨.inl hf, hb⟩
    have hanswered : s'.Shows journal (.answered q ⟨p, true⟩) :=
      hend.coherent.known _ ⟨.inr rfl, trivial⟩
    exact ⟨⟨e, hend.recall fun f hf => hkept f (h.coherent.known f hf.1) hf.2⟩,
      .inl (.inr ⟨q, _, hanswered, rfl, hqm.imp id fun hroot => hkept (.rooted m q) hroot trivial⟩)⟩

theorem evaluateCyclic_ends (hc : Conduct journal owner reserved hosts) (hh : host ∈ hosts)
    (h : s.Resting journal owner reserved known spare) (hm : s.Has m) (hcyc : s.isCyclic m)
    (hrun : evaluateCyclic host m s = some (p, s')) :
    s.Evaluation journal owner reserved known spare m p s' := by
  rw [evaluateCyclic, Run.view_bind] at hrun
  cases hr : refusal? (s.status m) with
  | some message =>
    rw [hr] at hrun
    have hpair := Option.some.inj hrun
    obtain rfl : _ = p := congrArg Prod.fst hpair
    obtain rfl : _ = s' := congrArg Prod.snd hpair
    obtain ⟨hcoh, hcalm⟩ := h.coherent.refuse hc hh h.sound .typeError message
    exact ⟨Resting.bearing ⟨hcalm.sound h.sound, hcoh⟩, .inr ⟨h.not_isLinked_of_refusal? hcyc hr,
      (s.newError .typeError message).1, settlement?_newRejected hc hh
        (s.newError .typeError message).2 (s.newError .typeError message).1⟩⟩
  | none =>
    rw [hr] at hrun
    dsimp only at hrun
    have hlinked := isLinked_of_refusal? hr
    -- The module that answers: the module itself, or the root of its cycle.
    split at hrun
    · rename_i hl
      rw [status_of_isCyclic hcyc] at hl
      have hidle : (s.cyclic m).status.IsIdle := by
        rw [hl]
        trivial
      exact h.answer_ends hc hh hm hcyc hlinked (.inl ((h.sound.shaped m).idle hidle).1.2.1)
        (.inl rfl) hrun
    · rw [Run.view_bind, cycleRoot_eq] at hrun
      cases hroot : (s.cyclic m).root with
      | none =>
        rw [hroot] at hrun
        exact h.answer_ends hc hh hm hcyc hlinked (.inl hroot) (.inl rfl) hrun
      | some q =>
        rw [hroot] at hrun
        have hq := (h.sound.member m q hroot).root
        have hawake := (h.sound.shaped q).not_idle_of_root (by
          rw [hq]
          exact fun e => nomatch e)
        exact h.answer_ends hc hh (has_of_awake hawake) (isCyclic_of_awake hawake)
          (isLinked_of_awake hawake) (.inr hq) (.inr hroot) hrun

/-- Whatever module is evaluated, the promise that is returned answers for it. -/
theorem evaluate_ends (hc : Conduct journal owner reserved hosts) (hh : host ∈ hosts)
    (h : s.Resting journal owner reserved known spare) (hm : s.Has m)
    (hrun : host.evaluate m s = some (p, s')) :
    s.Evaluation journal owner reserved known spare m p s' := by
  rw [Host.evaluate, Run.view_bind] at hrun
  split at hrun
  · exact evaluateCyclic_ends hc hh h hm ‹_› hrun
  · rename_i hcyc
    have hv := evaluateLeaf_visit hc hh h.coherent rfl h.sound (by simpa using hcyc) hrun
    exact ⟨Resting.bearing ⟨hv.calm.sound h.sound, hv.coherent⟩, hv.kept.imp .inl id⟩

end Machine

end ModuleGraph

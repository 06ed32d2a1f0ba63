import ModuleGraph.Proofs.Histories.Journeys

/-! # Operations are journeys

All that a host does with the machine is made of strides. An operation settles only promises that
were entrusted to it, and these are never the promises of joint waits. -/

namespace ModuleGraph

open Relation

variable {σ κ α : Type}

namespace Machine

variable {track : Tracker σ} {ledger : σ → α} {owned : σ → PromiseId → Prop}
variable {s s' s'' : Machine σ κ} {p q : PromiseId} {r : ReactionId} {os : List Occurrence}

def Travels (track : Tracker σ) (ledger : σ → α) (owned : σ → PromiseId → Prop)
    (s s' : Machine σ κ) : Prop :=
  s.Orderly owned → s'.Orderly owned ∧ ∃ os, s.Journey track ledger owned os s'

theorem travels_composes : Composes (Machine.Travels (κ := κ) track ledger owned) where
  refl _ hs := ⟨hs, [], .nil⟩
  trans h h' hs := by
    obtain ⟨hs₁, os, ho⟩ := h hs
    obtain ⟨hs₂, os', ho'⟩ := h' hs₁
    exact ⟨hs₂, os ++ os', ho.append ho'⟩

theorem Travels.separate (h : s.Travels track ledger owned s') (hs : s.Orderly owned)
    (hp : s.Separate p) : s'.Separate p := by
  obtain ⟨-, os, ho⟩ := h hs
  exact ho.separate hp

/-! ## Orderly machines -/

theorem orderly_initial {h : σ} (hh : ∀ p, ¬owned h p) :
    (initial h : Machine σ κ).Orderly owned where
  toGrounded := (trusty_initial hh).toGrounded
  suits r reaction hr := by
    obtain ⟨⟨⟩⟩ : False := by
      rw [reaction?, initial] at hr
      simp at hr
  answers m p _ hj := by
    obtain ⟨j, hj, -⟩ := hj
    exact Nat.not_lt_zero _ hj
  tickets t i _ hj := by
    obtain ⟨j, hj, -⟩ := hj
    exact Nat.not_lt_zero _ hj

theorem Orderly.made_of_isJoint (hs : s.Orderly owned) (hp : s.IsJoint p) : s.Made p := by
  obtain ⟨j, hj⟩ := hp
  have hclaim : s.Claims owned p (.join j) := hj
  exact hs.claims p _ hclaim

theorem Orderly.separate_answer (hs : s.Orderly owned) {m : ModuleId} (hp : s.AnswersWith m p) :
    s.Separate p := by
  have hclaim : s.Claims owned p (.module m) := hp
  exact ⟨hs.claims p _ hclaim, hs.answers m p hp⟩

theorem Orderly.separate_ticket (hs : s.Orderly owned) {t : TicketId} {i : PendingImport}
    (hi : s.import? t = some i) : s.Separate i.capability.promise := by
  have hclaim : s.Claims owned i.capability.promise (.ticket t) := ⟨i, hi, rfl⟩
  exact ⟨hs.claims _ _ hclaim, hs.tickets t i hi⟩

theorem Orderly.separate_nextPromise (hs : s.Orderly owned) (st : PromiseState) :
    (s.newPromise st).2.Separate s.nextPromise :=
  ⟨made_nextPromise s st, fun hj => not_made_nextPromise s (hs.made_of_isJoint hj)⟩

/-! ## Strides between orderly machines -/

/-- Modules answer with the same promises, or with others that operations may settle, and so do
tickets. -/
theorem Stride.travels (h : s.Stride track ledger os s')
    (hgrounded : s.Evolves track ledger owned s')
    (hanswers : ∀ m p, s'.AnswersWith m p → s.AnswersWith m p ∨ s.Separate p)
    (htickets : ∀ t i, s'.import? t = some i →
      s.import? t = some i ∨ s.Separate i.capability.promise) :
    s.Travels track ledger owned s' := by
  intro hs
  have hs' : s'.Orderly owned :=
    { toGrounded := (hgrounded hs.toGrounded).1
      suits := h.suits hs.suits
      answers := fun m p hp =>
        (h.separate ((hanswers m p hp).elim (hs.separate_answer) id)).apart
      tickets := fun t i hi => (h.separate ((htickets t i hi).elim hs.separate_ticket id)).apart }
  exact ⟨hs', os, .single h hs'⟩

theorem Stride.travels_of_eq (h : s.Stride track ledger os s')
    (hgrounded : s.Evolves track ledger owned s') (hmodules : s'.modules = s.modules)
    (himports : s'.imports = s.imports) : s.Travels track ledger owned s' :=
  h.travels hgrounded (fun _ _ hm => .inl (answersWith_of_modules hmodules hm))
    fun t i hi => .inl (by rwa [import?, himports, ← import?] at hi)

theorem LeavesPromises.travels (h : s.LeavesPromises ledger s') (hjoins : s'.joins = s.joins)
    (hanswers : ∀ m p, s'.AnswersWith m p → s.AnswersWith m p ∨ s.Separate p)
    (htickets : ∀ t i, s'.import? t = some i →
      s.import? t = some i ∨ s.Separate i.capability.promise)
    (howned : ∀ p, owned s'.host p → owned s.host p ∨ s.Made p) :
    s.Travels track ledger owned s' := by
  refine (Stride.beside h hjoins).travels (h.evolves (by rw [hjoins]) fun p => ?_) hanswers htickets
  refine claims_cases h.reactions (fun j hj => .inl ?_) (fun t hi => ?_) (fun q hq => .inl ?_)
    (fun m hm => (hanswers m p hm).imp id Separate.made) (howned p)
  · obtain ⟨hlt, hc⟩ := hj
    rw [join, hjoins, ← join] at hc
    exact ⟨hjoins ▸ hlt, hc⟩
  · obtain ⟨i, hi, rfl⟩ := hi
    exact (htickets t i hi).imp (fun hi => ⟨i, hi, rfl⟩) Separate.made
  · have hq : Job.adopt p q ∈ s'.jobs := hq
    rwa [h.jobs] at hq

theorem Incidental.travels (h : s.Incidental s') : s.Travels track ledger owned s' :=
  (Stride.beside ⟨h.promises, h.reactions, h.jobs, h.unhandled, by rw [h.host]⟩
    h.joins).travels_of_eq h.evolves h.modules h.imports

theorem travels_updateModule (s : Machine σ κ) (m : ModuleId) {f : Module → Module}
    (hf : ∀ x : Module, ∀ p, (f x).kind.AnswersWith p → x.kind.AnswersWith p ∨ s.Separate p) :
    s.Travels track ledger owned (s.updateModule m f) :=
  LeavesPromises.travels ⟨rfl, rfl, rfl, rfl, rfl⟩ rfl
    (fun _ p => answersWith_updateModule fun x => hf x p) (fun _ _ => .inl) fun _ => .inl

theorem travels_newPromise (s : Machine σ κ) {st : PromiseState} (hst : st.IsFresh) :
    s.Travels track ledger owned (s.newPromise st).2 := by
  have hevolves : s.Evolves track ledger owned (s.newPromise st).2 := evolves_newPromise s hst
  cases st with
  | pending rs b =>
    obtain ⟨rfl, rfl⟩ := hst
    exact (Stride.newPromise s).travels_of_eq hevolves rfl rfl
  | fulfilled v => exact (Stride.newFulfilled s v).travels_of_eq hevolves rfl rfl
  | rejected e handled => exact hst.elim

theorem imports_settle (track : Tracker σ) (s : Machine σ κ) (c : Capability)
    (result : Except Value Value) : (s.settle track c result).imports = s.imports := by
  have hsettles : s.Settles (fun _ => []) (s.settle track c result) c.promise :=
    settle_settles s (by exact fun _ _ _ => rfl) c result
  obtain hu | ⟨x, he⟩ | ⟨q, hf⟩ := hsettles
  · exact hu.imports
  · exact he.imports
  · exact hf.imports

theorem travels_call (ht : track.Discreet owned) (s : Machine σ κ) {c : Capability}
    (result : Except Value Value) (hc : s.Made c.promise) :
    s.Travels track ledger owned (s.settle track c result) :=
  (Stride.call s result hc).travels_of_eq (evolves_settle ht s hc result)
    (s.aside_settle c result).1 (imports_settle track s c result)

theorem travels_answer (ht : track.Discreet owned) (s : Machine σ κ) {c : Capability}
    (result : Except Value Value) (hc : s.Separate c.promise) :
    s.Travels track ledger owned (s.settle track c result) :=
  (Stride.answer s result hc).travels_of_eq (evolves_settle ht s hc.made result)
    (s.aside_settle c result).1 (imports_settle track s c result)

theorem travels_markHandled (ht : track.Discreet owned) (s : Machine σ κ) (p : PromiseId) :
    s.Travels track ledger owned (s.markHandled track p) := by
  refine (Stride.markHandled s p).travels_of_eq (evolves_markHandled ht s p)
    (s.aside_markHandled p).1 ?_
  rw [markHandled_eq]
  split <;> rfl

theorem travels_attach (ht : track.Discreet owned) (s : Machine σ κ) (p : PromiseId)
    {reaction : Reaction κ} (hplain : reaction.IsPlain)
    (hcapability : ∀ c, reaction.capability = some c → s.Separate c.promise)
    (hbody : ∀ m c code, reaction.handler = .resumeBody m c code → s.Separate c.promise) :
    s.Travels track ledger owned (s.attach track p reaction) := by
  have hsuits : s.Suits reaction :=
    ⟨hplain.guarded, fun j k e => absurd e (hplain.alone j k), fun e => absurd e hplain.apart,
      fun _ => hcapability, hbody⟩
  exact (Stride.attach s p hsuits hplain).travels_of_eq
    (evolves_attach ht s p (fun c hc => (hcapability c hc).made)
      (fun m c code e => (hbody m c code e).made) fun j k e => absurd e (hplain.alone j k))
    (s.aside_attach p reaction).1 (attach_attached track s p reaction).imports

theorem aside_attachJoined (track : Tracker σ) (ps : List PromiseId) :
    ∀ (s : Machine σ κ) (j : JoinId) (k : Nat),
      (s.attachJoined track j k ps).modules = s.modules ∧
        (s.attachJoined track j k ps).imports = s.imports := by
  induction ps with
  | nil => exact fun _ _ _ => ⟨rfl, rfl⟩
  | cons p rest ih =>
    intro s j k
    obtain ⟨hmodules, himports⟩ := ih (s.attach track p ⟨.joined j k, none⟩) j (k + 1)
    have hattached := attach_attached track s p ⟨.joined j k, none⟩
    exact ⟨hmodules.trans hattached.modules, himports.trans hattached.imports⟩

theorem travels_all (ht : track.Discreet owned) (s : Machine σ κ) (ps : List PromiseId) :
    s.Travels track ledger owned (s.all track ps).2 := by
  by_cases hps : ps = []
  · -- An empty joint wait has its array at once.
    subst hps
    intro hs
    have hnew : s.Travels track ledger owned s.newCapability.2 := travels_newPromise s ⟨rfl, rfl⟩
    have hobject : s.newCapability.2.Travels track ledger owned
        (s.newCapability.2.newObject (.ofList [])).2 :=
      Incidental.travels ⟨rfl, rfl, rfl, rfl, rfl, rfl, rfl, rfl⟩
    have hseparate := hs.separate_nextPromise (.pending [] false)
    have hanswer : Machine.Travels track ledger owned
        (s.newCapability.2.newObject (.ofList [])).2 (s.all track []).2 :=
      travels_answer ht _ (c := s.newCapability.1) (.ok (.object ⟨s.objects.size⟩))
        ⟨hseparate.made, hseparate.apart⟩
    exact travels_composes.trans hnew (travels_composes.trans hobject hanswer) hs
  · obtain ⟨hmodules, himports⟩ := aside_attachJoined track ps (s.newCapability.2.newJoin
      { remaining := ps.length
        values := List.replicate ps.length .undefined
        capability := s.newCapability.1 }).2 ⟨s.joins.size⟩ 0
    refine (Stride.all s hps).travels_of_eq (evolves_all ht s ps) ?_ ?_
    · rw [all_of_ne_nil track s hps]
      exact hmodules
    · rw [all_of_ne_nil track s hps]
      exact himports

theorem travels_takeImport (s : Machine σ κ) (t : TicketId) :
    s.Travels track ledger owned (s.takeImport t).2 := by
  rw [takeImport]
  split
  · refine LeavesPromises.travels ⟨rfl, rfl, rfl, rfl, rfl⟩ rfl (fun _ _ => .inl)
      (fun t' i hi => .inl ?_) fun _ => .inl
    rw [import?_taken] at hi
    split at hi
    · cases hi
    · exact hi
  · exact travels_composes.refl s

theorem travels_openImport (s : Machine σ κ) (referrer : Referrer) (specifier : String) :
    s.Travels track ledger owned (s.openImport referrer specifier) := by
  intro hs
  have hnew : s.Travels track ledger owned s.newCapability.2 := travels_newPromise s ⟨rfl, rfl⟩
  refine travels_composes.trans hnew (LeavesPromises.travels ⟨rfl, rfl, rfl, rfl, rfl⟩ rfl
    (fun _ _ => .inl) (fun t i hi => ?_) fun _ => .inl) hs
  rw [openImport, import?_newImport] at hi
  split at hi
  · cases hi
    exact .inr (hs.separate_nextPromise _)
  · exact .inl hi

theorem travels_queueImport (s : Machine σ κ) (referrer : Referrer) (specifier : String)
    (ticket : TicketId) :
    s.Travels track ledger owned (s.enqueue (.finishImport referrer specifier ticket)) :=
  (Stride.queueImport s referrer specifier ticket).travels_of_eq
    (evolves_queueImport s referrer specifier ticket) rfl rfl

/-! ### Jobs -/

theorem travels_enter {x : Settlement} (hjobs : s.jobs.head? = some (.react r x))
    (hplain : ∀ reaction, s.reaction? r = some reaction → reaction.IsPlain) :
    s.Travels track ledger owned (s.takeFirst r) :=
  (Stride.enter hjobs hplain).travels_of_eq (evolves_takeFirst hjobs) rfl rfl

theorem travels_passOn (ht : track.Discreet owned) {x : Settlement}
    (hjobs : s.jobs.head? = some (.react r x))
    (hr : s.reaction? r = some ⟨.passOn, some ⟨p, false⟩⟩) (hp : s.Made p) :
    s.Travels track ledger owned ((s.takeFirst r).settle track ⟨p, false⟩ x.toExcept) := by
  refine (Stride.passOn hjobs hr hp).travels_of_eq ?_ ((s.takeFirst r).aside_settle _ _).1
    (imports_settle track (s.takeFirst r) _ _)
  exact evolves_composes.trans (evolves_takeFirst hjobs)
    (evolves_settle ht (s.takeFirst r) (c := ⟨p, false⟩) hp x.toExcept)

theorem evolves_store (s : Machine σ κ) (j : JoinId) (k : Nat) (v : Value) :
    s.Evolves track ledger owned (s.store j k v) := evolves_setJoin s j rfl

theorem Orderly.made_join (hs : s.Orderly owned) {j : JoinId} {k : Nat}
    (hr : s.reaction? r = some ⟨.joined j k, none⟩) : s.Made (s.join j).capability.promise := by
  have hj : s.IsJoint (s.join j).capability.promise :=
    ⟨j, hs.joined r j k (by rw [handler?, hr]; rfl), rfl⟩
  exact hs.made_of_isJoint hj

theorem travels_joinFulfilled (ht : track.Discreet owned) {v : Value} {j : JoinId} {k : Nat}
    (hjobs : s.jobs.head? = some (.react r (.fulfilled v)))
    (hr : s.reaction? r = some ⟨.joined j k, none⟩) :
    s.Travels track ledger owned ((s.takeFirst r).joinFulfilled track j k v) := by
  intro hs
  have hp := hs.made_join hr
  have htake : s.Evolves track ledger owned (s.takeFirst r) := evolves_takeFirst hjobs
  have hstore := evolves_composes.trans htake (evolves_store (s.takeFirst r) j k v)
  rw [joinFulfilled]
  dsimp only
  split
  · rename_i hlast
    have hobject : ((s.takeFirst r).store j k v).Evolves track ledger owned
        ((s.takeFirst r).fill j k v) :=
      Incidental.evolves ⟨rfl, rfl, rfl, rfl, rfl, rfl, rfl, rfl⟩
    exact (Stride.complete hjobs hr hlast rfl hp rfl).travels_of_eq
      (evolves_composes.trans hstore (evolves_composes.trans hobject
        (evolves_settle ht ((s.takeFirst r).fill j k v) hp _)))
      (((s.takeFirst r).fill j k v).aside_settle _ _).1
      (imports_settle track ((s.takeFirst r).fill j k v) _ _) hs
  · exact (Stride.collect hjobs hr ‹_›).travels_of_eq hstore rfl rfl hs

theorem travels_joinRejected (ht : track.Discreet owned) {e : Value} {j : JoinId} {k : Nat}
    (hjobs : s.jobs.head? = some (.react r (.rejected e)))
    (hr : s.reaction? r = some ⟨.joined j k, none⟩) :
    s.Travels track ledger owned ((s.takeFirst r).joinRejected track j e) := by
  intro hs
  have hp := hs.made_join hr
  exact (Stride.giveUp hjobs hr rfl hp).travels_of_eq
    (evolves_composes.trans (evolves_takeFirst hjobs)
      (evolves_settle ht (s.takeFirst r) hp (.error e)))
    ((s.takeFirst r).aside_settle _ _).1 (imports_settle track (s.takeFirst r) _ _) hs

theorem travels_adopt (ht : track.Discreet owned) (hjobs : s.jobs.head? = some (.adopt p q)) :
    s.Travels track ledger owned (({ s with jobs := s.jobs.tail } : Machine σ κ).attach track q
      ⟨.passOn, some ⟨p, false⟩⟩) := by
  intro hs
  have hp : s.Made p := by
    have hclaim : s.Claims owned p (.follow q) := List.mem_of_mem_head? hjobs
    exact hs.claims p _ hclaim
  have htake : s.Evolves track ledger owned { s with jobs := s.jobs.tail } :=
    evolves_takeJob hjobs fun _ _ e => by cases e
  refine (Stride.adopt hjobs hp).travels_of_eq (evolves_composes.trans htake
    (evolves_attach ht _ q (fun c hc => ?_) (fun _ _ _ e => by cases e) fun _ _ e => by cases e))
    (aside_attach _ q _).1 (attach_attached track _ q _).imports hs
  cases hc
  exact hp

end Machine

/-! ## Operations -/

open Machine

variable {track : Tracker σ} {ledger : σ → α} {owned : σ → PromiseId → Prop}
variable {hosts : Set (Host σ κ)} {rank : Host σ κ → Nat} {host : Host σ κ}
variable {s s' : Machine σ κ} {h₀ : σ}

/-- The terms on which operations are journeys. -/
def itinerary (track : Tracker σ) (ledger : σ → α) (owned : σ → PromiseId → Prop) : Terms σ κ where
  known s := s.Orderly owned
  may s
    | .promise p => s.Separate p
    | .module _ | .request .. | .found _ => True
  change s s' := s.Travels track ledger owned s'

theorem carriesLink_itinerary (htrack : host.track = track) (ht : track.Discreet owned)
    (hchores : Chores host (itinerary track ledger owned).change) :
    CarriesLink host (itinerary track ledger owned) where
  toComposes := travels_composes
  chores := hchores
  assume h hs := h hs hs
  stays hs h := by
    refine ⟨(h hs).1, fun x hx => ?_⟩
    cases x with
    | promise p => exact Travels.separate h hs hx
    | module m => trivial
    | request m r | found m => trivial
  fresh st hs := hs.separate_nextPromise st
  answer hs hc := hs.separate_answer (.inl ⟨_, hc, rfl⟩)
  leafAnswer hs hk := hs.separate_answer (.inr hk)
  root _ _ := trivial
  parent _ _ := trivial
  linked _ _ := trivial
  asked _ _ _ _ := trivial
  answered _ _ _ := trivial
  keys m s r s' hrun := by
    have hasks : Asks host (itinerary track ledger owned).change :=
      { toComposes := travels_composes
        resolve := fun m request => hchores.resolve (.module m) request
        exportedNames := hchores.exportedNames
        resolveExport := hchores.resolveExport }
    obtain ⟨s₁, h₁, rfl | ⟨keys, rfl⟩⟩ := hasks.namespaceKeys_cases hrun
    · exact h₁
    · exact travels_composes.trans h₁ (travels_updateModule s₁ m fun _ _ => .inl)
  incidental h := h.travels
  newPromise s _ hst := travels_newPromise s hst
  settle s _ result hc := htrack ▸ travels_answer ht s result hc
  attach s p reaction hh hplain hc := by
    refine htrack ▸ travels_attach ht s p hplain hc fun m c code e => ?_
    rw [e] at hh
    exact hh
  markHandled s p := htrack ▸ travels_markHandled ht s p
  openImport s referrer specifier := travels_openImport s referrer specifier
  cyclic s m _ _ hf := travels_updateModule s m fun _ _ =>
    ModuleKind.answersWith_updateCyclic fun c => (hf c).capability
  leaf s m p _ _ hp hleaf hkind := by
    refine travels_updateModule s m fun x q hq =>
      (ModuleKind.answersWith_evaluated hleaf hkind hq).imp id ?_
    rintro rfl
    exact hp
  update s m f hf := by
    refine travels_updateModule s m fun x p hp => .inl ?_
    rwa [(hf x).1] at hp
  relink s m f hf := travels_updateModule s m fun x _ hp => .inl ((hf x.kind).answersWith hp)

theorem travels_react (ht : track.Discreet owned)
    (h : host.Heeds track (itinerary track ledger owned)) {r : ReactionId} {x : Settlement}
    {rest : List Job} (hjobs : s.jobs = .react r x :: rest) {result : Except Value Unit}
    (hrun : runJob host (.react r x) { s with jobs := rest } = some (result, s')) :
    s.Travels track ledger owned s' := by
  intro hs
  have hhead : s.jobs.head? = some (.react r x) := by rw [hjobs, List.head?_cons]
  cases hr : s.reaction? r with
  | none =>
    cases runJob_spent hjobs hr hrun
    exact travels_enter hhead (fun _ e => by cases hr.symm.trans e) hs
  | some reaction =>
    obtain ⟨result', s₁, hhandler, rfl⟩ := runJob_react hjobs hr hrun
    have hsuits := hs.suits r reaction hr
    rw [h.tracker]
    -- A settlement that is passed on, and one that a joint wait gets, is handled in one stride.
    by_cases hpass : reaction.handler = .passOn
    · obtain ⟨p, hc, hp⟩ := hsuits.passing hpass
      obtain ⟨handler, capability⟩ := reaction
      cases hpass
      cases hc
      rw [runHandler, Act.ofExcept_apply] at hhandler
      cases hhandler
      exact travels_passOn ht hhead hr hp hs
    by_cases hjoin : ∃ j k, reaction.handler = .joined j k
    · obtain ⟨j, k, e⟩ := hjoin
      have hc := hsuits.joined j k e
      obtain ⟨handler, capability⟩ := reaction
      cases e
      cases hc
      cases x with
      | fulfilled v =>
        cases hhandler
        exact h.tracker ▸ travels_joinFulfilled ht hhead hr hs
      | rejected e =>
        cases hhandler
        exact h.tracker ▸ travels_joinRejected ht hhead hr hs
    have hplain : reaction.IsPlain :=
      ⟨hpass, fun j k e => hjoin ⟨j, k, e⟩, hsuits.guarded⟩
    have htake : s.Travels track ledger owned (s.takeFirst r) :=
      travels_enter hhead fun y hy => by
        cases hr.symm.trans hy
        exact hplain
    have hadmits : (itinerary track ledger owned).Admits (s.takeFirst r) reaction.handler := by
      cases e : reaction.handler with
      | resumeBody m c code => exact htake.separate hs (hsuits.body m c code e)
      | joined j k => exact absurd e (hplain.alone j k)
      | bodyEnded | passOn | callback | imported => trivial
    have hhandled : (s.takeFirst r).Travels track ledger owned s₁ :=
      (carriesLink_itinerary h.tracker ht h.hooks.chores).runHandler
        (fun code _ => h.hooks.call code x) (fun j k e => absurd e (hplain.alone j k)) hadmits
        hhandler
    have hran := travels_composes.trans htake hhandled
    cases hc : reaction.capability with
    | none => exact hran hs
    | some c =>
      have hseparate := hran.separate hs (hsuits.settles hpass c hc)
      exact travels_composes.trans hran (travels_answer ht s₁ result' hseparate) hs

theorem travels_runNextJob (ht : track.Discreet owned)
    (h : host.Heeds track (itinerary track ledger owned)) (hfinish : ∀ ticket found,
      Along (Machine.Travels track ledger owned) (host.finishImport ticket found)) :
    Within (Machine.Travels track ledger owned) (ModuleGraph.runNextJob host) := by
  intro s result s' hrun
  cases hjobs : s.jobs with
  | nil =>
    rw [ModuleGraph.runNextJob, Act.make_bind, takeJob, hjobs] at hrun
    cases hrun
    exact travels_composes.refl s
  | cons job rest =>
    have hhead : s.jobs.head? = some job := by rw [hjobs, List.head?_cons]
    obtain ⟨result', hjob⟩ := runNextJob_job hjobs hrun
    cases job with
    | adopt p followed =>
      have hadopt : s.Travels track ledger owned (({ s with jobs := s.jobs.tail } :
          Machine σ κ).attach track followed ⟨.passOn, some ⟨p, false⟩⟩) := travels_adopt ht hhead
      rw [hjobs, List.tail_cons] at hadopt
      cases hjob
      rwa [h.tracker]
    | finishImport referrer specifier ticket =>
      have htake : s.Travels track ledger owned { s with jobs := s.jobs.tail } :=
        (Stride.takeJob hhead).travels_of_eq (evolves_takeJob hhead fun _ _ e => by cases e) rfl rfl
      rw [hjobs, List.tail_cons] at htake
      have hjobWithin : Within (Machine.Travels track ledger owned)
          (ModuleGraph.runJob host (.finishImport referrer specifier ticket)) :=
        Within.bind travels_composes
          (Within.ofRun (Along.outcome (h.hooks.resolve referrer specifier)))
          fun found => Within.ofRun (hfinish ticket found)
      exact travels_composes.trans htake (hjobWithin _ _ _ hjob)
    | react r x => exact travels_react ht h hjobs hjob

theorem governs_itinerary (ht : track.Discreet owned) :
    (itinerary (κ := κ) track ledger owned).Governs track ledger owned where
  toComposes := travels_composes
  assume h hs := h hs hs
  owns hs hp := hs.claims _ .host hp
  aside h hjoins himports hanswers howned :=
    h.travels hjoins (fun m p hp => .inl (hanswers m p hp))
      (fun t i hi => .inl (by rwa [import?, himports, ← import?] at hi))
      fun p hp => .inr (howned p hp)
  newPromise s _ hst := travels_newPromise s hst
  settle s _ result hc := travels_call ht s result hc
  thenCall s p code hs := by
    have hnew : s.Travels track ledger owned s.newCapability.2 := travels_newPromise s ⟨rfl, rfl⟩
    have hplain : (⟨.callback code, some s.newCapability.1⟩ : Reaction κ).IsPlain :=
      { apart := fun e => by cases e
        alone := fun _ _ e => by cases e
        guarded := fun e => by cases e }
    refine travels_composes.trans hnew (travels_attach ht s.newCapability.2 p hplain
      (fun c hc => ?_) fun _ _ _ e => by cases e) hs
    cases hc
    exact hs.separate_nextPromise _
  all s promises := travels_all ht s promises
  queueImport s referrer specifier ticket := travels_queueImport s referrer specifier ticket
  takeImport s t := travels_takeImport s t
  ticket := fun {s t i} hs hi => by
    have htake : s.Travels track ledger owned (s.takeImport t).2 := travels_takeImport s t
    exact htake.separate hs (hs.separate_ticket hi)
  carriesLink h := carriesLink_itinerary h.tracker ht h.hooks.chores
  runNextJob h hfinish := travels_runNextJob ht h hfinish

theorem Operates.heeds_itinerary (h : Operates hosts rank track ledger owned)
    (hhost : host ∈ hosts) : host.Heeds track (itinerary track ledger owned) :=
  (governs_itinerary h.discreet).heeds h hhost

theorem Operates.travels (h : Operates hosts rank track ledger owned)
    (hs : s.Uses hosts track ledger owned s') : s.Travels track ledger owned s' :=
  (governs_itinerary h.discreet).uses (fun _ => h.heeds_itinerary) hs

/-- A run from the start is a journey, and so is what it does from there on. -/
theorem Operates.journey (h : Operates hosts rank track ledger owned)
    (hs : s.Arises hosts track ledger owned h₀) (hs' : s.Uses hosts track ledger owned s') :
    ∃ os os', (initial h₀).Journey track ledger owned os s ∧
      s.Journey track ledger owned os' s' := by
  obtain ⟨horderly, os, ho⟩ := h.travels hs.2 (orderly_initial hs.1)
  obtain ⟨-, os', ho'⟩ := h.travels hs' horderly
  exact ⟨os, os', ho, ho'⟩

end ModuleGraph

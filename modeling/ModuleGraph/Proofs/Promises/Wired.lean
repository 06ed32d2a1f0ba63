import ModuleGraph.Proofs.Promises.Reactions

/-! # The promises of bodies

The end of an asynchronous body is told by a promise of its own. Nobody but the body can settle it:
no reaction, no joint wait, no import and no job has a capability for it. While the body waits,
another reaction holds the rest of it. What is wired in this way stays so under each operation on
promises. -/

namespace ModuleGraph

variable {σ κ : Type}

/-- What the wiring of promises takes from the modules and the journal. -/
structure Circuit where
  /-- The promises that nobody but an evaluation settles while they answer for it. -/
  reserved : Set PromiseId
  /-- The promises that answer for an evaluation. -/
  answers : PromiseId → Prop
  /-- The modules whose bodies were started. -/
  started : ModuleId → Prop
  /-- Whether the body of a module may have ended in this way. -/
  ended : ModuleId → Settlement → Prop
  /-- The modules whose bodies may have been started with a promise that has not told their ends. -/
  begun : ModuleId → Prop
  /-- The modules whose ends have to be told. -/
  due : ModuleId → Prop
  /-- The body that is running, with its promise. -/
  busy : Option (ModuleId × PromiseId)
  /-- The promises that the job that is running may settle. -/
  spare : PromiseId → Prop

def Handler.isOfBody : Handler κ → Prop
  | .bodyEnded _ | .resumeBody .. => True
  | .passOn | .callback _ | .imported _ | .joined .. => False

namespace Machine

variable {journal : σ → Journal} {owner : κ → ModuleId} {w w' : Circuit}
variable {s s' s'' : Machine σ κ} {p q : PromiseId} {r : ReactionId} {m : ModuleId}

/-- The promise carries the end of the body of a module. -/
def IsBody (s : Machine σ κ) (p : PromiseId) (m : ModuleId) : Prop :=
  ∃ r, s.Holds p r ∧ s.handler? r = some (.bodyEnded m)

/-- Something holds a capability for the promise. -/
def IsTarget (s : Machine σ κ) (p : PromiseId) : Prop :=
  (∃ r reaction c, s.reaction? r = some reaction ∧ reaction.capability = some c ∧
      c.promise = p) ∨
    (∃ j : JoinId, j.index < s.joins.size ∧ (s.join j).capability.promise = p) ∨
    (∃ t i, s.import? t = some i ∧ i.capability.promise = p) ∨ ∃ q, Job.adopt p q ∈ s.jobs

/-- A promise that anybody may settle. -/
structure Free (w : Circuit) (s : Machine σ κ) (p : PromiseId) : Prop where
  made : s.Made p
  body : ∀ m, ¬s.IsBody p m
  answer : p ∈ w.reserved → ¬w.answers p

/-- A promise that carries the end of the body of `m` only, or nothing any more. -/
structure Carries (w : Circuit) (s : Machine σ κ) (m : ModuleId) (p : PromiseId) : Prop where
  made : s.Made p
  answer : ¬w.answers p
  body : ∀ m', s.IsBody p m' → m' = m

structure Resumes (owner : κ → ModuleId) (w : Circuit) (s : Machine σ κ) (m : ModuleId)
    (c : Capability) (code : κ) : Prop extends Carries w s m c.promise where
  owner : owner code = m
  started : w.started m
  strict : c.mustBeUnresolved = true

structure Wired (owner : κ → ModuleId) (w : Circuit) (s : Machine σ κ) : Prop where
  targets : ∀ p, s.IsTarget p ∨ w.spare p → s.Free w p
  joined : ∀ r j k, s.handler? r = some (.joined j k) → j.index < s.joins.size
  held : ∀ p r, s.Holds p r → r.index < s.reactions.size
  queued : ∀ r x, Job.react r x ∈ s.jobs → r.index < s.reactions.size
  one : ∀ p m m', s.IsBody p m → s.IsBody p m' → m = m'
  apart : ∀ p m, s.IsBody p m → ¬w.answers p
  waits : ∀ p m, s.IsBody p m → s.Undecided p ∧
    (w.busy = some (m, p) ∨ ∃ r code, s.handler? r = some (.resumeBody m ⟨p, true⟩ code))
  begun : ∀ r m, s.handler? r = some (.bodyEnded m) → w.begun m
  sole : ∀ r r' m, s.handler? r = some (.bodyEnded m) → s.handler? r' = some (.bodyEnded m) → r = r'
  told : ∀ r x m, Job.react r x ∈ s.jobs → s.handler? r = some (.bodyEnded m) → w.ended m x
  resumed : ∀ r m c code, s.handler? r = some (.resumeBody m c code) → s.Resumes owner w m c code
  running : ∀ m p, w.busy = some (m, p) → s.Carries w m p
  kept : ∀ r h, s.handler? r = some h → h.isOfBody →
    (∃ p, s.Holds p r) ∨ ∃ x, Job.react r x ∈ s.jobs
  due : ∀ m, w.due m → ∃ r, s.handler? r = some (.bodyEnded m)

/-! ## Changes beside the promises -/

theorem Wired.weaken (h : s.Wired owner w) (hreserved : w'.reserved ⊆ w.reserved)
    (hanswers : ∀ p, s.Made p → w'.answers p → w.answers p)
    (hstarted : ∀ m, w.started m → w'.started m) (hended : ∀ m x, w.ended m x → w'.ended m x)
    (hbegun : ∀ m, w.begun m → w'.begun m) (hdue : ∀ m, w'.due m → w.due m)
    (hbusy : w'.busy = w.busy)
    (hspare : ∀ p, w'.spare p → s.IsTarget p ∨ w.spare p) : s.Wired owner w' where
  targets p hp := by
    have hf := h.targets p (hp.elim .inl (hspare p))
    exact ⟨hf.made, hf.body, fun hs ha => hf.answer (hreserved hs) (hanswers p hf.made ha)⟩
  joined := h.joined
  held := h.held
  queued := h.queued
  one := h.one
  apart p m hp ha := by
    obtain ⟨r, hr, hm⟩ := hp
    exact h.apart p m ⟨r, hr, hm⟩ (hanswers p (made_of_holds hr) ha)
  waits p m hp := by rw [hbusy]; exact h.waits p m hp
  begun r m hr := hbegun m (h.begun r m hr)
  sole := h.sole
  told r x m hr hm := hended m x (h.told r x m hr hm)
  resumed r m c code hr := by
    have hc := h.resumed r m c code hr
    exact ⟨⟨hc.made, fun ha => hc.answer (hanswers _ hc.made ha), hc.body⟩, hc.owner,
      hstarted m hc.started, hc.strict⟩
  running m p hp := by
    have hc := h.running m p (hbusy ▸ hp)
    exact ⟨hc.made, fun ha => hc.answer (hanswers _ hc.made ha), hc.body⟩
  kept := h.kept
  due m hm := h.due m (hdue m hm)

structure NoNewBody (s s' : Machine σ κ) : Prop where
  made : ∀ p, s.Made p → s'.Made p
  body : ∀ p m, s'.IsBody p m → s.IsBody p m

namespace NoNewBody

theorem free (hb : s.NoNewBody s') (h : s.Free w p) : s'.Free w p :=
  ⟨hb.made p h.made, fun m hm => h.body m (hb.body p m hm), h.answer⟩

theorem carries (hb : s.NoNewBody s') (h : s.Carries w m p) : s'.Carries w m p :=
  ⟨hb.made p h.made, h.answer, fun m' hm' => h.body m' (hb.body p m' hm')⟩

theorem resumes {c : Capability} {code : κ} (hb : s.NoNewBody s')
    (h : s.Resumes owner w m c code) : s'.Resumes owner w m c code :=
  ⟨hb.carries h.toCarries, h.owner, h.started, h.strict⟩

end NoNewBody

/-- A change that gives no promise a body. What is left to show is about the reactions: where they
are, and which of them are about bodies. -/
theorem Wired.change (h : s.Wired owner w) (hb : s.NoNewBody s') {begun due : ModuleId → Prop}
    {busy : Option (ModuleId × PromiseId)} {spare : PromiseId → Prop}
    (htargets : ∀ p, s'.IsTarget p ∨ spare p → s.Free w p)
    (hjoined : ∀ r j k, s'.handler? r = some (.joined j k) → j.index < s'.joins.size)
    (hheld : ∀ p r, s'.Holds p r → r.index < s'.reactions.size)
    (hqueued : ∀ r x, Job.react r x ∈ s'.jobs → r.index < s'.reactions.size)
    (hwaits : ∀ p m, s.IsBody p m → s'.IsBody p m → s'.Undecided p ∧
      (busy = some (m, p) ∨ ∃ r code, s'.handler? r = some (.resumeBody m ⟨p, true⟩ code)))
    (hended : ∀ r m, s'.handler? r = some (.bodyEnded m) →
      s.handler? r = some (.bodyEnded m) ∧ begun m)
    (htold : ∀ r x m, Job.react r x ∈ s'.jobs → s'.handler? r = some (.bodyEnded m) → w.ended m x)
    (hresumed : ∀ r m c code, s'.handler? r = some (.resumeBody m c code) →
      s.Resumes owner w m c code)
    (hrunning : ∀ m p, busy = some (m, p) → s.Carries w m p)
    (hkept : ∀ r k, s'.handler? r = some k → k.isOfBody →
      (∃ p, s'.Holds p r) ∨ ∃ x, Job.react r x ∈ s'.jobs)
    (hdue : ∀ m, due m → ∃ r, s'.handler? r = some (.bodyEnded m)) :
    s'.Wired owner { w with begun, due, busy, spare } where
  targets p hp :=
    have hf := hb.free (htargets p hp)
    ⟨hf.made, hf.body, hf.answer⟩
  joined := hjoined
  held := hheld
  queued := hqueued
  one p m m' hp hp' := h.one p m m' (hb.body p m hp) (hb.body p m' hp')
  apart p m hp := h.apart p m (hb.body p m hp)
  waits p m hp := hwaits p m (hb.body p m hp) hp
  begun r m hr := (hended r m hr).2
  sole r r' m hr hr' := h.sole r r' m (hended r m hr).1 (hended r' m hr').1
  told := htold
  resumed r m c code hr :=
    have hc := hb.resumes (hresumed r m c code hr)
    ⟨⟨hc.made, hc.answer, hc.body⟩, hc.owner, hc.started, hc.strict⟩
  running m p hp :=
    have hc := hb.carries (hrunning m p hp)
    ⟨hc.made, hc.answer, hc.body⟩
  kept := hkept
  due := hdue

/-- A change that leaves all reactions as they are. New promises are free, and so are those that
something may settle from now on. -/
theorem Wired.aside (h : s.Wired owner w) (hmade : ∀ p, s.Made p → s'.Made p)
    (hphase : ∀ p m, s.IsBody p m → (s'.promise p).phase = (s.promise p).phase)
    (hheld : ∀ p r, s'.Holds p r ↔ s.Holds p r) (hreactions : s'.reactions = s.reactions)
    (hjoins : s.joins.size ≤ s'.joins.size)
    (hjobs : ∀ r x, Job.react r x ∈ s'.jobs ↔ Job.react r x ∈ s.jobs)
    (htargets : ∀ p, s'.IsTarget p → s.IsTarget p ∨ s.Free w p) : s'.Wired owner w := by
  have hhandler : s'.handler? = s.handler? := funext fun r => by
    rw [handler?, reaction?, hreactions, handler?, reaction?]
  have hb : s.NoNewBody s' := ⟨hmade, fun p m => by simp only [IsBody, hheld, hhandler, imp_self]⟩
  refine h.change hb ?targets ?joined ?held ?queued ?waits ?ended ?told ?resumed h.running ?kept
    ?due
  case targets =>
    rintro p (hp | hp)
    · exact (htargets p hp).elim (fun e => h.targets p (.inl e)) id
    · exact h.targets p (.inr hp)
  case joined =>
    rw [hhandler]
    exact fun r j k hr => Nat.lt_of_lt_of_le (h.joined r j k hr) hjoins
  case held =>
    simp only [hheld, hreactions]
    exact h.held
  case queued =>
    simp only [hjobs, hreactions]
    exact h.queued
  case waits =>
    intro p m hp _
    rw [Undecided, hphase p m hp, hhandler]
    exact h.waits p m hp
  case ended =>
    rw [hhandler]
    exact fun r m hr => ⟨hr, h.begun r m hr⟩
  case told =>
    simp only [hjobs, hhandler]
    exact h.told
  case resumed =>
    rw [hhandler]
    exact h.resumed
  case kept =>
    simp only [hheld, hjobs, hhandler]
    exact h.kept
  case due =>
    rw [hhandler]
    exact h.due

theorem Wired.unmoved (h : s.Wired owner w) (hu : s.Unmoved journal s') : s'.Wired owner w := by
  refine h.aside (fun p hp => by rwa [Made, hu.size]) (fun p _ _ => hu.phase p)
    (fun p r => by rw [Holds, hu.held, Holds]) hu.reactions
    (Nat.le_of_eq (congrArg Array.size hu.joins).symm)
    (fun r x => by rw [hu.jobs]) fun p hp => .inl ?_
  simpa only [IsTarget, reaction?, join, import?, hu.reactions, hu.joins, hu.imports,
    hu.jobs] using hp

/-- The body that was running is taken care of already. -/
theorem Wired.idle (h : s.Wired owner w)
    (hbusy : ∀ q m, w.busy = some (m, q) → ∀ m', ¬s.IsBody q m') :
    s.Wired owner { w with busy := none } where
  targets p hp := ⟨(h.targets p hp).made, (h.targets p hp).body, (h.targets p hp).answer⟩
  joined := h.joined
  held := h.held
  queued := h.queued
  one := h.one
  apart := h.apart
  waits p m hp := ⟨(h.waits p m hp).1,
    .inr ((h.waits p m hp).2.resolve_left fun e => hbusy p m e m hp)⟩
  begun := h.begun
  sole := h.sole
  told := h.told
  resumed r m c code hr := by
    have hc := h.resumed r m c code hr
    exact ⟨⟨hc.made, hc.answer, hc.body⟩, hc.owner, hc.started, hc.strict⟩
  running m p hp := nomatch hp
  kept := h.kept
  due := h.due

/-! ## Something new -/

theorem promise_newPromise (s : Machine σ κ) (st : PromiseState) (p : PromiseId) :
    (s.newPromise st).2.promise p = if p = s.nextPromise then st else s.promise p := by
  obtain ⟨i⟩ := p
  by_cases e : i = s.promises.size
  · rw [if_pos (by rw [nextPromise, e])]
    subst e
    exact promise_newPromise_self s st
  · rw [if_neg fun h => e (by cases h; rfl)]
    simp [newPromise, promise, Array.getD_eq_getD_getElem?, Array.getElem?_push, e]

theorem made_newPromise (st : PromiseState) (h : s.Made p) : (s.newPromise st).2.Made p := by
  simp only [Made, newPromise, Array.size_push] at h ⊢
  omega

theorem not_made_nextPromise (s : Machine σ κ) : ¬s.Made s.nextPromise := Nat.lt_irrefl _

theorem ne_nextPromise (h : s.Made p) : p ≠ s.nextPromise := fun e => by
  rw [e] at h
  exact not_made_nextPromise s h

theorem Wired.newPromise (h : s.Wired owner w) {st : PromiseState} (hst : st.reactions = []) :
    (s.newPromise st).2.Wired owner w := by
  refine h.aside (fun p => made_newPromise st) (fun p m hp => ?_) (fun p r => ?_) rfl
    (Nat.le_refl _) (fun _ _ => Iff.rfl) fun p hp => .inl hp
  · obtain ⟨r, hr, -⟩ := hp
    rw [promise_newPromise, if_neg (ne_nextPromise (made_of_holds hr))]
  · rw [Holds, promise_newPromise, Holds]
    split
    · rename_i e
      rw [e, hst, reactions_of_not_made (not_made_nextPromise s)]
    · exact Iff.rfl

theorem Wired.newJoin (h : s.Wired owner w) {j : Join} (hj : s.Free w j.capability.promise) :
    (s.newJoin j).2.Wired owner w := by
  refine h.aside (fun _ hp => hp) (fun _ _ _ => rfl) (fun _ _ => Iff.rfl) rfl
    (by simp [Machine.newJoin]) (fun _ _ => Iff.rfl) fun p hp => ?_
  obtain hr | ⟨⟨i⟩, hi, rfl⟩ | ht | ha := hp
  · exact .inl (.inl hr)
  · by_cases e : i = s.joins.size
    · subst e
      refine .inr ?_
      simpa [Machine.newJoin, join] using hj
    · refine .inl (.inr (.inl ⟨⟨i⟩, ?_, ?_⟩))
      · simp only [Machine.newJoin, Array.size_push] at hi
        simp only
        omega
      · simp [Machine.newJoin, join, Array.getD_eq_getD_getElem?, Array.getElem?_push, e]
  · exact .inl (.inr (.inr (.inl ht)))
  · exact .inl (.inr (.inr (.inr ha)))

theorem Wired.newImport (h : s.Wired owner w) {i : PendingImport}
    (hi : s.Free w i.capability.promise) : (s.newImport i).2.Wired owner w := by
  refine h.aside (fun _ hp => hp) (fun _ _ _ => rfl) (fun _ _ => Iff.rfl) rfl (Nat.le_refl _)
    (fun _ _ => Iff.rfl) fun p hp => ?_
  obtain hr | hj | ⟨⟨k⟩, i', hk, rfl⟩ | ha := hp
  · exact .inl (.inl hr)
  · exact .inl (.inr (.inl hj))
  · by_cases e : k = s.imports.size
    · subst e
      simp only [Machine.newImport, import?, Array.getElem?_push_size, Option.bind_some, id_eq,
        Option.some.injEq] at hk
      rw [← hk]
      exact .inr hi
    · refine .inl (.inr (.inr (.inl ⟨⟨k⟩, i', ?_, rfl⟩)))
      simpa [Machine.newImport, import?, Array.getElem?_push, e] using hk
  · exact .inl (.inr (.inr (.inr ha)))

/-- A new job that does not run a reaction and settles nothing by itself. -/
theorem Wired.enqueueImport (h : s.Wired owner w) (referrer : Referrer) (specifier : String)
    (ticket : TicketId) : (s.enqueue (.finishImport referrer specifier ticket)).Wired owner w := by
  refine h.aside (fun _ hp => hp) (fun _ _ _ => rfl) (fun _ _ => Iff.rfl) rfl (Nat.le_refl _)
    (fun _ _ => by simp [enqueue]) fun p hp => .inl ?_
  obtain hr | hj | ht | ⟨q, ha⟩ := hp
  · exact .inl hr
  · exact .inr (.inl hj)
  · exact .inr (.inr (.inl ht))
  · exact .inr (.inr (.inr ⟨q, by simpa [enqueue] using ha⟩))

/-! ## Attaching -/

theorem Attached.handler? {reaction : Reaction κ} (h : s.Attached journal s' p reaction)
    (r : ReactionId) : s'.handler? r =
      if r = s.nextReaction then some reaction.handler else s.handler? r := by
  rw [Machine.handler?, h.reaction]
  split <;> rfl

theorem ne_nextReaction (h : r.index < s.reactions.size) : r ≠ s.nextReaction := by
  rintro rfl
  exact Nat.lt_irrefl _ h

theorem lt_of_reaction? {reaction : Reaction κ} (h : s.reaction? r = some reaction) :
    r.index < s.reactions.size := by
  by_contra hr
  rw [reaction?, Array.getElem?_eq_none (Nat.not_lt.1 hr)] at h
  cases h

theorem lt_of_handler? {k : Handler κ} (h : s.handler? r = some k) :
    r.index < s.reactions.size := by
  rw [Machine.handler?, Option.map_eq_some_iff] at h
  obtain ⟨reaction, hr, -⟩ := h
  exact lt_of_reaction? hr

theorem Attached.holds_of_holds {reaction : Reaction κ} (h : s.Attached journal s' p reaction)
    (hr : s.Holds q r) : s'.Holds q r := by
  obtain ⟨-, -, hh⟩ | ⟨x, -, -, hh⟩ := h.placed
  · exact (hh q r).2 (.inl hr)
  · exact (hh q r).2 hr

theorem Attached.holds_of_ne {reaction : Reaction κ} (h : s.Attached journal s' p reaction)
    (hne : r ≠ s.nextReaction) (hr : s'.Holds q r) : s.Holds q r := by
  obtain ⟨-, -, hh⟩ | ⟨x, -, -, hh⟩ := h.placed
  · exact ((hh q r).1 hr).resolve_right fun e => hne e.2.2
  · exact (hh q r).1 hr

theorem Attached.mem_jobs {reaction : Reaction κ} (h : s.Attached journal s' p reaction)
    {job : Job} (hj : job ∈ s'.jobs) : job ∈ s.jobs ∨ ∃ x, job = .react s.nextReaction x := by
  obtain ⟨-, hjobs, -⟩ | ⟨x, -, hjobs, -⟩ := h.placed
  · exact .inl (hjobs ▸ hj)
  · rw [hjobs] at hj
    exact (List.mem_append.1 hj).imp id fun e => ⟨x, List.mem_singleton.1 e⟩

theorem Attached.jobs_of_mem {reaction : Reaction κ} (h : s.Attached journal s' p reaction)
    {job : Job} (hj : job ∈ s.jobs) : job ∈ s'.jobs := by
  obtain ⟨-, hjobs, -⟩ | ⟨x, -, hjobs, -⟩ := h.placed
  · rwa [hjobs]
  · rw [hjobs]
    exact List.mem_append_left _ hj

/-- A reaction that is attached to a promise is held or queued. -/
theorem Attached.kept {reaction : Reaction κ} (h : s.Attached journal s' p reaction)
    (hp : s.Made p) : (∃ q, s'.Holds q s.nextReaction) ∨
      ∃ x, Job.react s.nextReaction x ∈ s'.jobs := by
  obtain ⟨-, -, hh⟩ | ⟨x, -, hjobs, -⟩ := h.placed
  · exact .inl ⟨p, (hh p _).2 (.inr ⟨hp, rfl, rfl⟩)⟩
  · exact .inr ⟨x, by rw [hjobs]; exact List.mem_append_right _ (List.mem_singleton_self _)⟩

theorem Attached.target {reaction : Reaction κ} (h : s.Attached journal s' p reaction)
    (hq : s'.IsTarget q) :
    s.IsTarget q ∨ ∃ c, reaction.capability = some c ∧ c.promise = q := by
  obtain ⟨r, reaction', c, hr, hc, hcq⟩ | ⟨j, hj, hjq⟩ | ⟨t, i, ht, hi⟩ | ⟨q', ha⟩ := hq
  · rw [h.reaction] at hr
    split at hr
    · cases hr
      exact .inr ⟨c, hc, hcq⟩
    · exact .inl (.inl ⟨r, reaction', c, hr, hc, hcq⟩)
  · refine .inl (.inr (.inl ⟨j, ?_, ?_⟩))
    · rwa [h.joins] at hj
    · rwa [join, h.joins] at hjq
  · rw [import?, h.imports] at ht
    exact .inl (.inr (.inr (.inl ⟨t, i, ht, hi⟩)))
  · refine .inl (.inr (.inr (.inr ⟨q', (h.mem_jobs ha).resolve_right ?_⟩)))
    rintro ⟨x, hx⟩
    cases hx

/-- A reaction that is known afterwards is the new one or an old one. -/
theorem Attached.cases {reaction : Reaction κ} (h : s.Attached journal s' p reaction)
    {k : Handler κ} (hr : s'.handler? r = some k) :
    r = s.nextReaction ∧ k = reaction.handler ∨ r ≠ s.nextReaction ∧ s.handler? r = some k := by
  rw [h.handler?] at hr
  split at hr
  · cases hr
    exact .inl ⟨‹_›, rfl⟩
  · exact .inr ⟨‹_›, hr⟩

theorem Attached.old {reaction : Reaction κ} (h : s.Attached journal s' p reaction)
    {k : Handler κ} (hr : s.handler? r = some k) : s'.handler? r = some k := by
  rw [h.handler?, if_neg (ne_nextReaction (lt_of_handler? hr)), hr]

theorem Attached.made {reaction : Reaction κ} (h : s.Attached journal s' p reaction)
    (hq : s.Made q) : s'.Made q := by
  rwa [Made, h.size]

section Attached

variable {reaction : Reaction κ} (h : s.Wired owner w) (ha : s.Attached journal s' p reaction)
include h ha

theorem Attached.held_lt (hr : s'.Holds q r) : r.index < s'.reactions.size := by
  rw [ha.count]
  by_cases e : r = s.nextReaction
  · rw [e]
    exact Nat.lt_succ_self _
  · exact Nat.lt_succ_of_lt (h.held q r (ha.holds_of_ne e hr))

theorem Attached.queued_lt {x : Settlement} (hr : Job.react r x ∈ s'.jobs) :
    r.index < s'.reactions.size := by
  rw [ha.count]
  obtain hr | ⟨y, hy⟩ := ha.mem_jobs hr
  · exact Nat.lt_succ_of_lt (h.queued r x hr)
  · cases hy
    exact Nat.lt_succ_self _

theorem Attached.free (hcapability : ∀ c, reaction.capability = some c → s.Free w c.promise)
    (hq : s'.IsTarget q ∨ w.spare q) : s.Free w q := by
  obtain hq | hq := hq
  · obtain ht | ⟨c, hc, rfl⟩ := ha.target hq
    · exact h.targets q (.inl ht)
    · exact hcapability c hc
  · exact h.targets q (.inr hq)

theorem Attached.kept_old {k : Handler κ} (hr : s.handler? r = some k) (hk : k.isOfBody) :
    (∃ q, s'.Holds q r) ∨ ∃ x, Job.react r x ∈ s'.jobs := by
  obtain ⟨q, hq⟩ | ⟨x, hx⟩ := h.kept r k hr hk
  · exact .inl ⟨q, ha.holds_of_holds hq⟩
  · exact .inr ⟨x, ha.jobs_of_mem hx⟩

theorem Attached.told_old {x : Settlement} (hr : Job.react r x ∈ s'.jobs)
    (hne : r ≠ s.nextReaction) (hm : s.handler? r = some (.bodyEnded m)) : w.ended m x := by
  refine h.told r x m ((ha.mem_jobs hr).resolve_right ?_) hm
  rintro ⟨y, hy⟩
  cases hy
  exact hne rfl

end Attached

/-- A reaction that does not tell the end of a body. If it is the rest of a body then the promise of
this body is no longer the one of a running body. -/
theorem Wired.attached (h : s.Wired owner w) {reaction : Reaction κ}
    {busy : Option (ModuleId × PromiseId)}
    (ha : s.Attached journal s' p reaction)
    (hcapability : ∀ c, reaction.capability = some c → s.Free w c.promise)
    (hended : ∀ m, reaction.handler ≠ .bodyEnded m)
    (hjoined : ∀ j k, reaction.handler = .joined j k → j.index < s.joins.size)
    (hresumes : ∀ m c code, reaction.handler = .resumeBody m c code →
      s.Made p ∧ s.Resumes owner w m c code)
    (hbusy : busy = w.busy ∨ busy = none ∧ ∀ q m, s.IsBody q m → w.busy = some (m, q) →
      ∃ code, reaction.handler = .resumeBody m ⟨q, true⟩ code) :
    s'.Wired owner { w with busy } := by
  have hb : s.NoNewBody s' := by
    refine ⟨fun q => ha.made, ?_⟩
    rintro q m ⟨r, hr, hm⟩
    obtain ⟨-, e⟩ | ⟨hne, hm⟩ := ha.cases hm
    · exact (hended m e.symm).elim
    · exact ⟨r, ha.holds_of_ne hne hr, hm⟩
  refine h.change hb (fun q => ha.free h hcapability) ?joined (fun q r => ha.held_lt h)
    (fun r x => ha.queued_lt h) ?waits ?ended ?told ?resumed ?running ?kept ?due
  case joined =>
    intro r j k hr
    rw [ha.joins]
    obtain ⟨-, e⟩ | ⟨-, hr⟩ := ha.cases hr
    · exact hjoined j k e.symm
    · exact h.joined r j k hr
  case waits =>
    intro q m hq _
    obtain ⟨hd, hwaits⟩ := h.waits q m hq
    rw [Undecided, ha.phase]
    refine ⟨hd, ?_⟩
    obtain hwaits | ⟨r, code, hr⟩ := hwaits
    · obtain rfl | ⟨-, hrest⟩ := hbusy
      · exact .inl hwaits
      · obtain ⟨code, hcode⟩ := hrest q m hq hwaits
        exact .inr ⟨s.nextReaction, code, by rw [ha.handler?, if_pos rfl, hcode]⟩
    · exact .inr ⟨r, code, ha.old hr⟩
  case ended =>
    intro r m hr
    obtain ⟨-, e⟩ | ⟨-, hr⟩ := ha.cases hr
    · exact (hended m e.symm).elim
    · exact ⟨hr, h.begun r m hr⟩
  case told =>
    intro r x m hr hm
    obtain ⟨-, e⟩ | ⟨hne, hm⟩ := ha.cases hm
    · exact (hended m e.symm).elim
    · exact ha.told_old h hr hne hm
  case resumed =>
    intro r m c code hr
    obtain ⟨-, e⟩ | ⟨-, hr⟩ := ha.cases hr
    · exact (hresumes m c code e.symm).2
    · exact h.resumed r m c code hr
  case running =>
    obtain rfl | ⟨rfl, -⟩ := hbusy
    · exact h.running
    · exact fun m p hp => by cases hp
  case kept =>
    intro r k hr hk
    obtain ⟨rfl, rfl⟩ | ⟨-, hr⟩ := ha.cases hr
    · refine ha.kept ?_
      cases e : reaction.handler with
      | resumeBody m c code => exact (hresumes m c code e).1
      | bodyEnded m => exact (hended m e).elim
      | passOn | callback | imported | joined =>
        rw [e] at hk
        exact hk.elim
    · exact ha.kept_old h hr hk
  case due =>
    intro m hm
    obtain ⟨r, hr⟩ := h.due m hm
    exact ⟨r, ha.old hr⟩

structure Unused (w : Circuit) (s : Machine σ κ) (p : PromiseId) : Prop where
  made : s.Made p
  undecided : s.Undecided p
  unheld : ∀ r, ¬s.Holds p r
  target : ¬(s.IsTarget p ∨ w.spare p)
  answer : ¬w.answers p
  rest : ∀ r m c code, s.handler? r = some (.resumeBody m c code) → c.promise ≠ p

theorem Wired.unused (h : s.Wired owner w) (hanswers : ∀ p, w.answers p → s.Made p) :
    (s.newPromise (.pending [] false)).2.Unused w s.nextPromise where
  made := by simp [Made, Machine.newPromise, nextPromise]
  undecided := by
    rw [Undecided, promise_newPromise, if_pos rfl]
    rfl
  unheld r hr := by
    rw [Holds, promise_newPromise, if_pos rfl] at hr
    cases hr
  target hp := not_made_nextPromise s (h.targets _ hp).made
  answer ha := not_made_nextPromise s (hanswers _ ha)
  rest r m c code hr := ne_nextPromise (h.resumed r m c code hr).made

section Embodied

variable (h : s.Wired owner w) (hp : s.Unused w p)
variable (ha : s.Attached journal s' p ⟨.bodyEnded m, none⟩) {x y : ModuleId}
include h hp ha

/-- The promise is pending, so that it holds the new reaction. -/
theorem Wired.held_embodied :
    s'.jobs = s.jobs ∧ ∀ q, s'.Holds q s.nextReaction → q = p := by
  obtain ⟨-, hjobs, hholds⟩ | ⟨x, hx, -⟩ := ha.placed
  · refine ⟨hjobs, fun q hq => ?_⟩
    exact (((hholds q _).1 hq).resolve_left fun hq => Nat.lt_irrefl _ (h.held q _ hq)).2.1
  · rw [← PromiseState.phase_snd, show (s.promise p).phase = _ from hp.undecided] at hx
    cases hx

/-- Ends of bodies are carried as before, and the new one by the unused promise. -/
theorem Wired.body_embodied (hx : s'.IsBody q x) : s.IsBody q x ∧ q ≠ p ∨ q = p ∧ x = m := by
  obtain ⟨r, hr, hx⟩ := hx
  obtain ⟨rfl, e⟩ | ⟨hne, hx⟩ := ha.cases hx
  · cases e
    exact .inr ⟨(h.held_embodied hp ha).2 q hr, rfl⟩
  · have hr := ha.holds_of_ne hne hr
    exact .inl ⟨⟨r, hr, hx⟩, fun e => hp.unheld r (e ▸ hr)⟩

theorem Wired.body_embodied_of_ne (hq : q ≠ p) (hx : s'.IsBody q x) : s.IsBody q x :=
  ((h.body_embodied hp ha hx).resolve_right fun e => hq e.1).1

theorem Wired.free_embodied (hq : s'.IsTarget q ∨ w.spare q) : s'.Free w q := by
  have hf := ha.free h (fun c e => by cases e) hq
  have hne : q ≠ p := by
    rintro rfl
    exact hp.target
      (hq.imp (fun hq => (ha.target hq).resolve_right fun h => by cases h.choose_spec.1) id)
  exact ⟨ha.made hf.made, fun x hx => hf.body x (h.body_embodied_of_ne hp ha hne hx), hf.answer⟩

theorem Wired.one_embodied (hx : s'.IsBody q x) (hy : s'.IsBody q y) : x = y := by
  obtain ⟨hx, hne⟩ | ⟨rfl, rfl⟩ := h.body_embodied hp ha hx
  · exact h.one q x y hx (h.body_embodied_of_ne hp ha hne hy)
  · obtain ⟨-, hne⟩ | ⟨-, rfl⟩ := h.body_embodied hp ha hy
    · exact (hne rfl).elim
    · rfl

theorem Wired.apart_embodied (hx : s'.IsBody q x) : ¬w.answers q := by
  obtain ⟨hx, -⟩ | ⟨rfl, -⟩ := h.body_embodied hp ha hx
  · exact h.apart q x hx
  · exact hp.answer

/-- The rests of other bodies wait, since none of them is running. -/
theorem Wired.waits_embodied (hbusy : w.busy = none) (hx : s'.IsBody q x) : s'.Undecided q ∧
    (some (m, p) = some (x, q) ∨
      ∃ r code, s'.handler? r = some (.resumeBody x ⟨q, true⟩ code)) := by
  rw [Undecided, ha.phase]
  obtain ⟨hx, -⟩ | ⟨rfl, rfl⟩ := h.body_embodied hp ha hx
  · obtain ⟨hd, hwaits⟩ := h.waits q x hx
    obtain ⟨r, code, hr⟩ := hwaits.resolve_left fun e => by cases hbusy.symm.trans e
    exact ⟨hd, .inr ⟨r, code, ha.old hr⟩⟩
  · exact ⟨hp.undecided, .inl rfl⟩

theorem Wired.told_embodied {v : Settlement} (hr : Job.react r v ∈ s'.jobs)
    (hx : s'.handler? r = some (.bodyEnded x)) : w.ended x v := by
  obtain ⟨rfl, -⟩ | ⟨hne, hx⟩ := ha.cases hx
  · rw [(h.held_embodied hp ha).1] at hr
    exact absurd (h.queued _ _ hr) (Nat.lt_irrefl _)
  · exact ha.told_old h hr hne hx

theorem Wired.resumed_embodied {c : Capability} {code : κ}
    (hr : s'.handler? r = some (.resumeBody x c code)) : s'.Resumes owner w x c code := by
  obtain ⟨-, e⟩ | ⟨-, hr⟩ := ha.cases hr
  · cases e
  · have hc := h.resumed r x c code hr
    have hbody : ∀ y, s'.IsBody c.promise y → y = x := fun y hy =>
      hc.body y (h.body_embodied_of_ne hp ha (hp.rest r x c code hr) hy)
    exact ⟨⟨ha.made hc.made, hc.answer, hbody⟩, hc.owner, hc.started, hc.strict⟩

theorem Wired.carries_embodied : s'.Carries w m p := by
  refine ⟨ha.made hp.made, hp.answer, fun y hy => ?_⟩
  exact ((h.body_embodied hp ha hy).resolve_left fun e => e.2 rfl).2

omit hp in
theorem Wired.sole_embodied {r' : ReactionId} (hm : ¬w.begun m)
    (hr : s'.handler? r = some (.bodyEnded x)) (hr' : s'.handler? r' = some (.bodyEnded x)) :
    r = r' := by
  obtain ⟨rfl, e⟩ | ⟨-, hr⟩ := ha.cases hr <;> obtain ⟨rfl, e'⟩ | ⟨-, hr'⟩ := ha.cases hr'
  · rfl
  · cases e
    exact (hm (h.begun r' m hr')).elim
  · cases e'
    exact (hm (h.begun r m hr)).elim
  · exact h.sole r r' x hr hr'

/-- An unused promise carries the end of a body from now on. -/
theorem Wired.embodied (hm : ¬w.begun m) {begun due : ModuleId → Prop}
    (hbegun : ∀ x, w.begun x ∨ x = m → begun x) (hdue : ∀ x, due x → w.due x ∨ x = m)
    (hbusy : w.busy = none) :
    s'.Wired owner { w with begun, due, busy := some (m, p) } where
  targets q hq :=
    have hf := h.free_embodied hp ha hq
    ⟨hf.made, hf.body, hf.answer⟩
  joined r j k hr := by
    rw [ha.joins]
    obtain ⟨-, e⟩ | ⟨-, hr⟩ := ha.cases hr
    · cases e
    · exact h.joined r j k hr
  held q r := ha.held_lt h
  queued r x := ha.queued_lt h
  one q x y := h.one_embodied hp ha
  apart q x := h.apart_embodied hp ha
  waits q x := h.waits_embodied hp ha hbusy
  begun r x hr := by
    obtain ⟨-, e⟩ | ⟨-, hr⟩ := ha.cases hr
    · cases e
      exact hbegun m (.inr rfl)
    · exact hbegun x (.inl (h.begun r x hr))
  sole r r' x := h.sole_embodied ha hm
  told r v x := h.told_embodied hp ha
  resumed r x c code hr :=
    have hc := h.resumed_embodied hp ha hr
    ⟨⟨hc.made, hc.answer, hc.body⟩, hc.owner, hc.started, hc.strict⟩
  running x q e := by
    cases e
    have hc := h.carries_embodied hp ha
    exact ⟨hc.made, hc.answer, hc.body⟩
  kept r k hr hk := by
    obtain ⟨rfl, -⟩ | ⟨-, hr⟩ := ha.cases hr
    · exact ha.kept hp.made
    · exact ha.kept_old h hr hk
  due x hx := by
    obtain hx | rfl := hdue x hx
    · obtain ⟨r, hr⟩ := h.due x hx
      exact ⟨r, ha.old hr⟩
    · exact ⟨s.nextReaction, by rw [ha.handler?]; exact if_pos rfl⟩

end Embodied

/-- A body is about to be started: a new promise carries its end. -/
theorem Wired.bodyAttached (h : s.Wired owner w) (hanswers : ∀ p, w.answers p → s.Made p)
    (ha : (s.newPromise (.pending [] false)).2.Attached journal s' s.nextPromise
      ⟨.bodyEnded m, none⟩) (hm : ¬w.begun m) {begun due : ModuleId → Prop}
    (hbegun : ∀ x, w.begun x ∨ x = m → begun x) (hdue : ∀ x, due x → w.due x ∨ x = m)
    (hbusy : w.busy = none) :
    s'.Wired owner { w with begun, due, busy := some (m, s.nextPromise) } :=
  (h.newPromise rfl).embodied (h.unused hanswers) ha hm hbegun hdue hbusy

/-! ## Settling -/

section Ended

variable {x : Settlement} (he : s.Ended journal s' p x)
include he

theorem Ended.reaction? (r : ReactionId) : s'.reaction? r = s.reaction? r := by
  rw [Machine.reaction?, he.reactions, Machine.reaction?]

theorem Ended.handler? (r : ReactionId) : s'.handler? r = s.handler? r := by
  rw [Machine.handler?, he.reaction?, Machine.handler?]

theorem Ended.mem_jobs {y : Settlement} (hr : Job.react r y ∈ s'.jobs) :
    Job.react r y ∈ s.jobs ∨ s.Holds p r ∧ y = x := by
  rw [he.jobs] at hr
  refine (List.mem_append.1 hr).imp id fun hr => ?_
  obtain ⟨r', hr', e⟩ := List.mem_map.1 hr
  cases e
  exact ⟨hr', rfl⟩

theorem Ended.target (hq : s'.IsTarget q) : s.IsTarget q := by
  obtain ⟨r, reaction, c, hr, hc⟩ | ⟨j, hj, hjq⟩ | ⟨t, i, ht, hi⟩ | ⟨q', ha⟩ := hq
  · exact .inl ⟨r, reaction, c, (he.reaction? r).symm.trans hr, hc⟩
  · refine .inr (.inl ⟨j, ?_, ?_⟩)
    · rwa [he.joins] at hj
    · rwa [join, he.joins] at hjq
  · rw [import?, he.imports] at ht
    exact .inr (.inr (.inl ⟨t, i, ht, hi⟩))
  · refine .inr (.inr (.inr ⟨q', ?_⟩))
    rw [he.jobs] at ha
    refine (List.mem_append.1 ha).resolve_right fun ha => ?_
    obtain ⟨r, -, e⟩ := List.mem_map.1 ha
    cases e

theorem Ended.isBody {m : ModuleId} (hq : s'.IsBody q m) : s.IsBody q m ∧ q ≠ p := by
  obtain ⟨r, hr, hm⟩ := hq
  obtain ⟨hr, hq⟩ := (he.held q r).1 hr
  exact ⟨⟨r, hr, (he.handler? r).symm.trans hm⟩, hq⟩

end Ended

/-- A promise is settled; the promise of a body only as the body has ended. -/
theorem Wired.ended (h : s.Wired owner w) {x : Settlement} (he : s.Ended journal s' p x)
    (hx : ∀ m, s.IsBody p m → w.ended m x)
    {busy : Option (ModuleId × PromiseId)}
    (hbusy : busy = w.busy ∨ busy = none ∧ ∀ q m, q ≠ p → w.busy ≠ some (m, q)) :
    s'.Wired owner { w with busy } := by
  have hhandler : s'.handler? = s.handler? := funext he.handler?
  have hb : s.NoNewBody s' := ⟨fun q hq => by rwa [Made, he.size], fun q m hq => (he.isBody hq).1⟩
  refine h.change hb (fun q hq => h.targets q (hq.imp he.target id)) ?joined ?held ?queued ?waits
    ?ended ?told ?resumed ?running ?kept ?due
  case joined =>
    rw [hhandler, he.joins]
    exact h.joined
  case held =>
    intro q r hr
    rw [he.reactions]
    exact h.held q r ((he.held q r).1 hr).1
  case queued =>
    intro r y hr
    rw [he.reactions]
    obtain hr | ⟨hr, -⟩ := he.mem_jobs hr
    · exact h.queued r y hr
    · exact h.held p r hr
  case waits =>
    intro q m hq hq'
    have hne := (he.isBody hq').2
    obtain ⟨hd, hwaits⟩ := h.waits q m hq
    rw [Undecided, he.other q hne, hhandler]
    refine ⟨hd, hwaits.imp (fun hwaits => ?_) id⟩
    obtain rfl | ⟨-, hrest⟩ := hbusy
    · exact hwaits
    · exact (hrest q m hne hwaits).elim
  case ended =>
    rw [hhandler]
    exact fun r m hr => ⟨hr, h.begun r m hr⟩
  case told =>
    intro r v m hr hm
    rw [hhandler] at hm
    obtain hr | ⟨hr, rfl⟩ := he.mem_jobs hr
    · exact h.told r v m hr hm
    · exact hx m ⟨r, hr, hm⟩
  case resumed =>
    rw [hhandler]
    exact h.resumed
  case running =>
    obtain rfl | ⟨rfl, -⟩ := hbusy
    · exact h.running
    · exact fun m p hp => by cases hp
  case kept =>
    intro r k hr hk
    rw [hhandler] at hr
    rw [he.jobs]
    obtain ⟨q, hq⟩ | ⟨y, hy⟩ := h.kept r k hr hk
    · by_cases e : q = p
      · subst e
        exact .inr ⟨x, List.mem_append_right _ (List.mem_map.2 ⟨r, hq, rfl⟩)⟩
      · exact .inl ⟨q, (he.held q r).2 ⟨hq, e⟩⟩
    · exact .inr ⟨y, List.mem_append_left _ hy⟩
  case due =>
    rw [hhandler]
    exact h.due

/-- A promise that anybody may settle is settled, or follows another one. -/
theorem Wired.settles (h : s.Wired owner w) (hs : s.Settles journal s' p) (hp : s.Free w p) :
    s'.Wired owner w := by
  obtain hu | ⟨x, he⟩ | ⟨q, hf⟩ := hs
  · exact h.unmoved hu
  · exact h.ended he (fun m hm => (hp.body m hm).elim) (.inl rfl)
  · refine h.aside (fun p hp => by rwa [Made, hf.size]) (fun p' m hm => hf.other p' ?_)
      (fun p r => by rw [Holds, hf.held, Holds]) hf.reactions
      (Nat.le_of_eq (congrArg Array.size hf.joins).symm) (fun r x => by simp [hf.jobs])
        fun p' ht => ?_
    · rintro rfl
      exact hp.body m hm
    · obtain ⟨r, reaction, c, hr, hc⟩ | ⟨j, hj, hjq⟩ | ⟨t, i, ht, hi⟩ | ⟨q', ha⟩ := ht
      · rw [reaction?, hf.reactions] at hr
        exact .inl (.inl ⟨r, reaction, c, hr, hc⟩)
      · refine .inl (.inr (.inl ⟨j, ?_, ?_⟩))
        · rwa [hf.joins] at hj
        · rwa [join, hf.joins] at hjq
      · rw [import?, hf.imports] at ht
        exact .inl (.inr (.inr (.inl ⟨t, i, ht, hi⟩)))
      · rw [hf.jobs] at ha
        obtain ha | ha := List.mem_append.1 ha
        · exact .inl (.inr (.inr (.inr ⟨q', ha⟩)))
        · cases List.mem_singleton.1 ha
          exact .inr hp

/-! ## Taking a job -/

def takeFirst (s : Machine σ κ) (r : ReactionId) : Machine σ κ :=
  { s with jobs := s.jobs.tail, reactions := s.reactions.setIfInBounds r.index none }

theorem reaction?_takeFirst (s : Machine σ κ) (r r' : ReactionId) :
    (s.takeFirst r).reaction? r' = if r' = r then none else s.reaction? r' := by
  obtain ⟨i⟩ := r'
  obtain ⟨k⟩ := r
  simp only [reaction?, takeFirst, Array.getElem?_setIfInBounds, ReactionId.mk.injEq]
  by_cases e : k = i
  · subst e
    simp only [if_true]
    split <;> rfl
  · rw [if_neg e, if_neg (Ne.symm e)]

theorem handler?_takeFirst {r' : ReactionId} {k : Handler κ} :
    (s.takeFirst r).handler? r' = some k ↔ r' ≠ r ∧ s.handler? r' = some k := by
  rw [Machine.handler?, reaction?_takeFirst]
  split
  · exact iff_of_false (fun e => nomatch e) fun e => e.1 ‹_›
  · exact (and_iff_right ‹_›).symm

theorem isTarget_of_takeFirst (hq : (s.takeFirst r).IsTarget q) : s.IsTarget q := by
  obtain ⟨r', reaction, c, hr', hc⟩ | hj | ht | ⟨q', ha⟩ := hq
  · rw [reaction?_takeFirst] at hr'
    split at hr'
    · cases hr'
    · exact .inl ⟨r', reaction, c, hr', hc⟩
  · exact .inr (.inl hj)
  · exact .inr (.inr (.inl ht))
  · exact .inr (.inr (.inr ⟨q', List.mem_of_mem_tail ha⟩))

/-- The job of a reaction is taken. What the reaction was about is no longer taken care of by it. -/
theorem Wired.takeFirst (h : s.Wired owner w) {x : Settlement} {rest : List Job}
    (hjobs : s.jobs = .react r x :: rest) {begun due : ModuleId → Prop}
    {busy : Option (ModuleId × PromiseId)}
    (hbegun : ∀ m, w.begun m → s.handler? r ≠ some (.bodyEnded m) → begun m)
    (hdue : ∀ m, due m → w.due m ∧ s.handler? r ≠ some (.bodyEnded m)) (hidle : w.busy = none)
    (hresumed : ∀ m c code, s.handler? r = some (.resumeBody m c code) → busy = some (m, c.promise))
    (hbusy : ∀ m p, busy = some (m, p) → s.Carries w m p) {spare : PromiseId → Prop}
    (hspare : ∀ p, spare p → s.Free w p) :
    (s.takeFirst r).Wired owner { w with begun, due, busy, spare } := by
  have hb : s.NoNewBody (s.takeFirst r) := by
    refine ⟨fun q hq => hq, ?_⟩
    rintro q m ⟨r', hr', hm⟩
    exact ⟨r', hr', (handler?_takeFirst.1 hm).2⟩
  have hsize : (s.takeFirst r).reactions.size = s.reactions.size := by simp [Machine.takeFirst]
  refine h.change hb ?targets (fun r' j k hr => h.joined r' j k (handler?_takeFirst.1 hr).2) ?held
    ?queued ?waits ?ended
    (fun r' v m hr hm => h.told r' v m (List.mem_of_mem_tail hr) (handler?_takeFirst.1 hm).2)
    (fun r' m c code hr => h.resumed r' m c code (handler?_takeFirst.1 hr).2) hbusy ?kept ?due
  case targets =>
    rintro q (hq | hq)
    · exact h.targets q (.inl (isTarget_of_takeFirst hq))
    · exact hspare q hq
  case held =>
    rw [hsize]
    exact h.held
  case queued =>
    rw [hsize]
    exact fun r' y hr => h.queued r' y (List.mem_of_mem_tail hr)
  case waits =>
    intro q m hq _
    obtain ⟨hd, hwaits⟩ := h.waits q m hq
    obtain ⟨r', code, hr'⟩ := hwaits.resolve_left fun e => nomatch hidle.symm.trans e
    refine ⟨hd, ?_⟩
    by_cases e : r' = r
    · exact .inl (hresumed m _ code (e ▸ hr'))
    · exact .inr ⟨r', code, handler?_takeFirst.2 ⟨e, hr'⟩⟩
  case ended =>
    intro r' m hr
    obtain ⟨hne, hr⟩ := handler?_takeFirst.1 hr
    exact ⟨hr, hbegun m (h.begun r' m hr) fun e => hne (h.sole r' r m hr e)⟩
  case kept =>
    intro r' k hr hk
    obtain ⟨hne, hr⟩ := handler?_takeFirst.1 hr
    obtain hq | ⟨y, hy⟩ := h.kept r' k hr hk
    · exact .inl hq
    · rw [hjobs] at hy
      refine .inr ⟨y, ?_⟩
      rw [Machine.takeFirst, hjobs]
      refine (List.mem_cons.1 hy).resolve_left fun e => ?_
      cases e
      exact hne rfl
  case due =>
    intro m hm
    obtain ⟨hm, hne⟩ := hdue m hm
    obtain ⟨r', hr'⟩ := h.due m hm
    exact ⟨r', handler?_takeFirst.2 ⟨fun e => hne (e ▸ hr'), hr'⟩⟩

theorem Wired.takeJob (h : s.Wired owner w) {job : Job} {rest : List Job}
    (hjobs : s.jobs = job :: rest) (hjob : ∀ r x, job ≠ .react r x) :
    ({ s with jobs := rest } : Machine σ κ).Wired owner w := by
  refine h.aside (fun _ hp => hp) (fun _ _ _ => rfl) (fun _ _ => Iff.rfl) rfl (Nat.le_refl _)
    (fun r x => ?_) fun p hp => .inl ?_
  · rw [hjobs, List.mem_cons]
    exact ⟨.inr, fun e => e.resolve_left fun e => hjob r x e.symm⟩
  · obtain hr | hj | ht | ⟨q, ha⟩ := hp
    · exact .inl hr
    · exact .inr (.inl hj)
    · exact .inr (.inr (.inl ht))
    · exact .inr (.inr (.inr ⟨q, by rw [hjobs]; exact List.mem_cons_of_mem _ ha⟩))

end Machine

end ModuleGraph

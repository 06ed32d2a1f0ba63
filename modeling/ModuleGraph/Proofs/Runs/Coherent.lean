import ModuleGraph.Proofs.Runs.View

/-! # Coherent machines

Beside the graph of its modules, a machine is coherent in its promises: those of bodies are wired,
those of evaluations tell how far the evaluation is, and those of leaves are settled. The journal
notes the end of a body only after its start, and whatever a body needs was done when it was
started. Calls of the host keep all this. -/

namespace ModuleGraph

open Relation

variable {σ κ : Type} {journal : σ → Journal} {owner : κ → ModuleId} {reserved : Set PromiseId}
variable {hosts : Set (Host σ κ)}

/-! ## What a body needs when it is started -/

namespace Machine

def LeafReady (s : Machine σ κ) (n : ModuleId) : Prop :=
  s.isCyclic n = false → s.LeafDone n

def CycleReady (s : Machine σ κ) (j : Journal) (n : ModuleId) : Prop :=
  Entry.ended n ∈ j ∧ ∃ q, s.cycleRoot? n = some q ∧ (s.cyclic q).status = .evaluated ∧
    (s.cyclic q).error = none

/-- What a module requests is evaluated, apart from modules of its own cycle. -/
def Prepared (s : Machine σ κ) (j : Journal) (m : ModuleId) : Prop :=
  ∀ r ∈ s.requested m, ∃ n, Entry.resolved m r n ∈ j ∧ s.LeafReady n ∧
    (s.isCyclic n → s.CycleReady j n ∨ ReflTransGen (s.Requests j) n m)

end Machine

/-- Whenever a body was started, what it needs was done. -/
def Journal.Logged (j : Journal) : Prop :=
  ∀ j₁ m before, (j₁ ++ [.started m before]) <+: j → before.isCyclic m → before.Prepared j₁ m

theorem Journal.Logged.note {j : Journal} (h : j.Logged) {e : Entry}
    (he : ∀ m before, e = .started m before → before.isCyclic m → before.Prepared j m) :
    Logged (j ++ [e]) := by
  intro j₁ m before hp hc
  obtain hp | hp := List.prefix_concat_iff.1 hp
  · obtain ⟨rfl, e'⟩ := List.append_inj' hp rfl
    cases e'
    exact he m before rfl hc
  · exact h j₁ m before hp hc

theorem Journal.Logged.append {j k : Journal} (h : j.Logged)
    (hk : ∀ e ∈ k, ∀ m before, e ≠ .started m before) : Logged (j ++ k) := by
  induction k generalizing j with
  | nil => rwa [List.append_nil]
  | cons e rest ih =>
    rw [List.append_cons]
    refine ih (h.note fun m before he => ?_) fun e' he' => hk e' (List.mem_cons_of_mem _ he')
    exact (hk e (List.mem_cons_self ..) m before he).elim

theorem Journal.Answers.not_started {k : Journal} (hk : k.Answers) :
    ∀ e ∈ k, ∀ m before, e ≠ .started m before := by
  rintro e he m before rfl
  exact Bool.noConfusion (hk _ he)

/-! ## Coherence -/

/-- What can be found at a machine and stays true later. -/
inductive Finding
  /-- The module was made with these requests. -/
  | made (m : ModuleId) (requested : List String)
  | settled (p : PromiseId) (x : Settlement)
  | answered (m : ModuleId) (c : Capability)
  | rooted (m q : ModuleId)
  | failed (m : ModuleId) (e : Value)
  /-- The leaf was evaluated, and the promise tells how. -/
  | kept (m : ModuleId) (p : PromiseId)
  /-- If the module has failed without a root then it did so with the value. -/
  | spared (m : ModuleId) (e : Value)
  | noted (entry : Entry)

/-- An evaluation that throws the value does not take the finding back. -/
def Finding.Bears (e : Value) : Finding → Prop
  | .spared _ e' => e' = e
  | .made .. | .settled .. | .answered .. | .rooted .. | .failed .. | .kept .. | .noted _ => True

def Finding.IsLasting (f : Finding) : Prop := ∀ e, f.Bears e

structure Standing where
  /-- Modules whose evaluation is about to be answered for, with the capabilities. -/
  late : List (ModuleId × Capability)
  known : Finding → Prop
  /-- The leaf whose body is running. -/
  leaf : Option ModuleId
  /-- Whether modules are between two stages of linking. -/
  linking : Prop

/-- What the machine is in the middle of, beside its evaluation. -/
structure Focus extends Standing where
  /-- Modules that are ready, or whose end has just been told. -/
  excused : List ModuleId
  busy : Option (ModuleId × PromiseId)
  spare : PromiseId → Prop

def Focus.rest (known : Finding → Prop) (spare : PromiseId → Prop) : Focus :=
  { late := [], known, leaf := none, linking := False, excused := [], busy := none, spare }

def Focus.IsLate (o : Focus) (m : ModuleId) : Prop := ∃ c, (m, c) ∈ o.late

theorem Focus.isLate_cons {o : Focus} {late : List (ModuleId × Capability)} {m x : ModuleId}
    {c : Capability} (hl : o.late = (m, c) :: late) (hx : x ≠ m) :
    ({ o with late } : Focus).IsLate x ↔ o.IsLate x := by
  rw [IsLate, IsLate, hl]
  refine exists_congr fun d => ⟨List.mem_cons_of_mem _,
    fun hd => (List.mem_cons.1 hd).resolve_left ?_⟩
  exact fun e => hx (congrArg Prod.fst e)

namespace Machine

variable {s s' : Machine σ κ} {o o' : Focus} {m x : ModuleId} {p : PromiseId} {c : Capability}

def Begun (s : Machine σ κ) (m : ModuleId) : Prop :=
  s.isCyclic m ∧ (s.cyclic m).order ≠ .unset ∧
    ((s.cyclic m).order.isTurn → (s.cyclic m).error = none → (s.cyclic m).pending = some 0)

/-- The end of the body of a module may still be told by a promise. -/
structure MayTell (s : Machine σ κ) (excused : List ModuleId) (m : ModuleId) : Prop where
  begun : s.Begun m
  failed : (s.cyclic m).order = .done → (s.cyclic m).error ≠ none
  owed : m ∉ excused

def Due (s : Machine σ κ) (excused : List ModuleId) (m : ModuleId) : Prop :=
  (s.cyclic m).order.isTurn ∧ (s.cyclic m).error = none ∧ (s.cyclic m).pending = some 0 ∧
    m ∉ excused

def MayEnd (journal : σ → Journal) (s : Machine σ κ) (m : ModuleId) : Settlement → Prop
  | .fulfilled _ => Entry.ended m ∈ journal s.host
  | .rejected e => s.Throws journal m e

def circuit (journal : σ → Journal) (reserved : Set PromiseId) (o : Focus) (s : Machine σ κ) :
    Circuit :=
  { reserved
    answers := s.Answers
    started := fun m => (journal s.host).starts m ≠ 0
    ended := s.MayEnd journal
    begun := s.MayTell o.excused
    due := s.Due o.excused
    busy := o.busy
    spare := o.spare }

/-- The promise of an evaluation tells how far it is. -/
structure Tells (o : Focus) (s : Machine σ κ) (m : ModuleId) (p : PromiseId) : Prop where
  waiting : o.IsLate m ∨ (s.cyclic m).status ≠ .evaluated → s.Undecided p
  succeeded : ¬o.IsLate m → (s.cyclic m).status = .evaluated → (s.cyclic m).error = none →
    ∃ v, (s.promise p).settlement? = some (.fulfilled v)
  failed : ¬o.IsLate m → (s.cyclic m).status = .evaluated → ∀ e, (s.cyclic m).error = some e →
    (s.promise p).settlement? = some (.rejected e)

/-- A promise that an evaluation of `m` has returned: it is settled, for a module that takes part in
cycles with a rejection, or it answers for `m` or for the cycle of `m`. -/
def AnswersFor (s : Machine σ κ) (m : ModuleId) (p : PromiseId) : Prop :=
  (∃ x, (s.promise p).settlement? = some x ∧ (s.isCyclic m → ∃ e, x = .rejected e)) ∨
    ∃ q c, (s.cyclic q).capability = some c ∧ c.promise = p ∧
      (q = m ∨ (s.cyclic m).root = some q)

def Shows (journal : σ → Journal) (s : Machine σ κ) : Finding → Prop
  | .made m requested => s.Has m ∧ (s.cyclic m).requested = requested
  | .settled p x => (s.promise p).settlement? = some x
  | .answered m c => (s.cyclic m).capability = some c
  | .rooted m q => (s.cyclic m).root = some q
  | .failed m e => (s.cyclic m).error = some e
  | .kept m p => (s.module m).kind.leaf? = some (.evaluated p)
  | .spared m e => ∀ e', (s.cyclic m).error = some e' → (s.cyclic m).root ≠ none ∨ e' = e
  | .noted entry => entry ∈ journal s.host

/-- The promise of a leaf that was evaluated is settled, and rejected only with what the leaf has
thrown. -/
def LeafSettled (journal : σ → Journal) (s : Machine σ κ) (m : ModuleId) (p : PromiseId) : Prop :=
  ∃ x, (s.promise p).settlement? = some x ∧ ∀ e, x = .rejected e → s.Throws journal m e

/-- A module whose body was started was made, and a leaf is evaluated afterwards. -/
structure Started (journal : σ → Journal) (leaf : Option ModuleId) (s : Machine σ κ)
    (m : ModuleId) : Prop where
  has : s.Has m
  leaf : s.isCyclic m = false → (journal s.host).starts m ≤ 1 ∧
    (leaf = some m ∨ ∃ p, (s.module m).kind.leaf? = some (.evaluated p))

structure Coherent (journal : σ → Journal) (owner : κ → ModuleId) (reserved : Set PromiseId)
    (o : Focus) (s : Machine σ κ) : Prop where
  wired : s.Wired owner (s.circuit journal reserved o)
  leaves : ∀ m p, (s.module m).kind.leaf? = some (.evaluated p) → s.LeafSettled journal m p
  visited : ∀ m, (journal s.host).starts m ≠ 0 → s.Started journal o.leaf m
  linked : ¬o.linking → (journal s.host).Stable → s.LinkClosed journal
  capable : ∀ m c, (s.cyclic m).capability = some c → c.mustBeUnresolved = true ∧ s.Made c.promise
  distinct : ∀ m n c d, (s.cyclic m).capability = some c → (s.cyclic n).capability = some d →
    c.promise = d.promise → m = n
  own : ∀ m c, (s.cyclic m).capability = some c →
    (s.cyclic m).root = none ∨ (s.cyclic m).root = some m
  unasked : ∀ m, (s.cyclic m).status.IsIdle ∨ (s.cyclic m).status = .evaluating →
    (s.cyclic m).capability = none ∨ o.IsLate m
  late : ∀ m c, (m, c) ∈ o.late → (s.cyclic m).capability = some c
  known : ∀ f, o.known f → s.Shows journal f
  tells : ∀ m c, (s.cyclic m).capability = some c → c.promise ∈ reserved → s.Tells o m c.promise
  noted : ∀ m, Entry.ended m ∈ journal s.host → (journal s.host).starts m ≠ 0
  logged : (journal s.host).Logged

namespace Quiet

theorem capability (h : s.Quiet journal s') (hm : (s'.cyclic m).capability = some c) :
    s.Has m ∧ s'.cyclic m = s.cyclic m := by
  by_cases hn : s.Has m
  · exact ⟨hn, h.fields hn⟩
  · rw [(h.made m hn).capability] at hm
    cases hm

theorem order (h : s.Quiet journal s') (m : ModuleId) :
    (s'.cyclic m).order = (s.cyclic m).order := by
  by_cases hn : s.Has m
  · rw [h.fields hn]
  · rw [(h.made m hn).fresh.2.2.1, (untouched_of_isNew (isNew_of_not_has hn)).fresh.2.2.1]

theorem has_of_order (hm : (s.cyclic m).order ≠ .unset) : s.Has m := by
  by_contra hn
  exact hm (untouched_of_isNew (isNew_of_not_has hn)).fresh.2.2.1

theorem answers (h : s.Quiet journal s') (hp : s'.Answers p) : s.Answers p := by
  obtain ⟨m, c, hm, hc⟩ := hp
  exact ⟨m, c, (h.capability hm).2 ▸ hm, hc⟩

theorem has_of_root {q : ModuleId} (hm : (s.cyclic m).root = some q) : s.Has m := by
  by_contra hn
  rw [(untouched_of_isNew (isNew_of_not_has hn)).fresh.2.1] at hm
  cases hm

theorem has_of_capability (hm : (s.cyclic m).capability = some c) : s.Has m := by
  by_contra hn
  rw [(untouched_of_isNew (isNew_of_not_has hn)).capability] at hm
  cases hm

theorem has_of_error {e : Value} (hm : (s.cyclic m).error = some e) : s.Has m := by
  by_contra hn
  rw [(untouched_of_isNew (isNew_of_not_has hn)).fresh.1] at hm
  cases hm

theorem shows (h : s.Quiet journal s')
    (hp : ∀ p x, (s.promise p).settlement? = some x → (s'.promise p).settlement? = some x)
    {f : Finding} (hf : s.Shows journal f) : s'.Shows journal f := by
  cases f with
  | made m requested => exact ⟨h.has hf.1, by rw [h.fields hf.1, hf.2]⟩
  | settled p x => exact hp p x hf
  | answered m c => exact (congrArg Cyclic.capability (h.fields (has_of_capability hf))).trans hf
  | rooted m q => exact (congrArg Cyclic.root (h.fields (has_of_root hf))).trans hf
  | failed m e => exact (congrArg Cyclic.error (h.fields (has_of_error hf))).trans hf
  | kept m p => exact h.evaluated m p hf
  | spared m e =>
    intro e' he
    by_cases hn : s.Has m
    · rw [h.fields hn] at he ⊢
      exact hf e' he
    · rw [(h.made m hn).fresh.1] at he
      cases he
  | noted entry => exact h.mem_journal hf

theorem mayEnd (h : s.Quiet journal s') {x : Settlement} (hm : s.MayEnd journal m x) :
    s'.MayEnd journal m x := by
  cases x with
  | fulfilled v => exact h.mem_journal hm
  | rejected e => exact h.throws hm

theorem leafSettled (h : s.Quiet journal s')
    (hp : ∀ p x, (s.promise p).settlement? = some x → (s'.promise p).settlement? = some x)
    (hm : s.LeafSettled journal m p) : s'.LeafSettled journal m p := by
  obtain ⟨x, hx, he⟩ := hm
  exact ⟨x, hp p x hx, fun e hxe => h.throws (he e hxe)⟩

/-- The circuit does not notice a quiet change. -/
theorem wired (h : s.Quiet journal s') (hw : s'.Wired owner (s.circuit journal reserved o)) :
    s'.Wired owner (s'.circuit journal reserved o) := by
  refine hw.weaken (fun _ => id) (fun p _ hp => h.answers hp) (fun m hm => ?_)
    (fun m x hm => h.mayEnd hm) (fun m hm => ?_) (fun m hm => ?_) rfl fun p hp => .inr hp
  · change (journal s'.host).starts m ≠ 0
    rw [h.starts]
    exact hm
  · obtain ⟨⟨hc, ho, ht⟩, hf, hx⟩ := hm
    have hn := has_of_order ho
    rw [← h.fields hn] at ho ht hf
    refine ⟨⟨?_, ho, ht⟩, hf, hx⟩
    rw [Machine.isCyclic, h.cyclic m hn]
    exact hc
  · obtain ⟨ho, he, hp, hx⟩ := hm
    have hn : s.Has m := has_of_order (by
      rw [← h.order m]
      intro e
      rw [e] at ho
      cases ho)
    rw [h.fields hn] at ho he hp
    exact ⟨ho, he, hp, hx⟩

end Quiet

/-- A quiet change. What is left to show is that promises tell how far evaluations are, and that
nothing idle or open is answered for. -/
theorem Coherent.changes (h : s.Coherent journal owner reserved o) (hq : s.Quiet journal s')
    (ha : o'.known = o.known) (hl : ∀ x ∈ o'.late, x ∈ o.late)
    (hleaf : ∀ m, o.leaf = some m →
      o'.leaf = some m ∨ ∃ p, (s'.module m).kind.leaf? = some (.evaluated p))
    (hlinking : o.linking → o'.linking)
    (hw : s'.Wired owner (s.circuit journal reserved o')) (hmade : ∀ p, s.Made p → s'.Made p)
    (hleaves : ∀ m p, (s'.module m).kind.leaf? = some (.evaluated p) → s'.LeafSettled journal m p)
    (hsettled : ∀ p x, (s.promise p).settlement? = some x → (s'.promise p).settlement? = some x)
    (hunasked : ∀ m, (s.cyclic m).status.IsIdle ∨ (s.cyclic m).status = .evaluating →
      o.IsLate m → o'.IsLate m)
    (htells : ∀ m c, (s.cyclic m).capability = some c → s'.cyclic m = s.cyclic m →
      c.promise ∈ reserved → s'.Tells o' m c.promise) : s'.Coherent journal owner reserved o' := by
  refine ⟨hq.wired hw, hleaves, fun m hm => ?_, fun hl hst => ?_, fun m c hm => ?_,
    fun m n c d hm hn => ?_, fun m c hm => ?_,
    fun m hm => ?_, fun m c hm => ?_, fun f hf => ?_, fun m c hm hres => ?_, fun m hm => ?_, ?_⟩
  · rw [hq.starts] at hm
    have hv := h.visited m hm
    refine ⟨hq.has hv.has, fun hc => ?_⟩
    rw [isCyclic, hq.cyclic m hv.has, ← isCyclic] at hc
    obtain ⟨hle, hx | ⟨p, hp⟩⟩ := hv.leaf hc
    · exact ⟨hq.starts m ▸ hle, hleaf m hx⟩
    · exact ⟨hq.starts m ▸ hle, .inr ⟨p, hq.evaluated m p hp⟩⟩
  · obtain ⟨k, -, hk⟩ := hq.noted
    rw [hk] at hst
    exact hq.linkClosed (h.linked (fun e => hl (hlinking e)) hst.of_prefix)
  · rw [(hq.capability hm).2] at hm
    exact ⟨(h.capable m c hm).1, hmade _ (h.capable m c hm).2⟩
  · rw [(hq.capability hm).2] at hm
    rw [(hq.capability hn).2] at hn
    exact h.distinct m n c d hm hn
  · have he := (hq.capability hm).2
    rw [he] at hm ⊢
    exact h.own m c hm
  · by_cases hn : s.Has m
    · rw [hq.fields hn] at hm ⊢
      exact (h.unasked m hm).imp id (hunasked m hm)
    · exact .inl (hq.made m hn).capability
  · have hc := h.late m c (hl _ hm)
    rw [hq.fields (Quiet.has_of_capability hc), hc]
  · rw [ha] at hf
    exact hq.shows hsettled (h.known f hf)
  · have he := (hq.capability hm).2
    rw [he] at hm
    exact htells m c hm he hres
  · rw [hq.starts]
    obtain ⟨k, hk, hj⟩ := hq.noted
    rw [hj] at hm
    refine h.noted m ((List.mem_append.1 hm).resolve_right fun hm => ?_)
    exact Bool.noConfusion (hk _ hm)
  · obtain ⟨k, hk, hj⟩ := hq.noted
    rw [hj]
    exact h.logged.append hk.not_started

/-- What a promise tells stays true as long as it is not decided too early. -/
theorem Tells.quiet {q : PromiseId} (ht : s.Tells o m q) (he : s'.cyclic m = s.cyclic m)
    (hlate : o'.IsLate m ↔ o.IsLate m)
    (hsettled : ∀ x, (s.promise q).settlement? = some x → (s'.promise q).settlement? = some x)
    (hundecided : s.Undecided q → s'.Undecided q) : s'.Tells o' m q := by
  refine ⟨fun hw => ?_, fun hl hst her => ?_, fun hl hst e her => ?_⟩ <;> rw [hlate] at * <;>
    rw [he] at *
  · exact hundecided (ht.waiting hw)
  · obtain ⟨v, hv⟩ := ht.succeeded hl hst her
    exact ⟨v, hsettled _ hv⟩
  · exact hsettled _ (ht.failed hl hst e her)

/-- A quiet change that leaves the promises of evaluations undecided as long as they are. -/
theorem Coherent.quiet (h : s.Coherent journal owner reserved o) (hq : s.Quiet journal s')
    (ha : o'.toStanding = o.toStanding) (hw : s'.Wired owner (s.circuit journal reserved o'))
    (hmade : ∀ p, s.Made p → s'.Made p)
    (hleaves : ∀ m p, (s'.module m).kind.leaf? = some (.evaluated p) → s'.LeafSettled journal m p)
    (hsettled : ∀ p x, (s.promise p).settlement? = some x → (s'.promise p).settlement? = some x)
    (hundecided : ∀ p ∈ reserved, s.Answers p → s.Undecided p → s'.Undecided p) :
    s'.Coherent journal owner reserved o' := by
  have hl : o'.late = o.late := congrArg Standing.late ha
  have hlate : ∀ m, o'.IsLate m ↔ o.IsLate m := fun m => by rw [Focus.IsLate, hl, Focus.IsLate]
  have hleaf : o'.leaf = o.leaf := congrArg Standing.leaf ha
  have hlinking : o'.linking = o.linking := congrArg Standing.linking ha
  exact h.changes hq (congrArg Standing.known ha) (fun x hx => hl ▸ hx)
    (fun m hm => .inl (hleaf.trans hm)) (fun e => hlinking ▸ e) hw hmade hleaves hsettled
    (fun m _ hm => (hlate m).2 hm) fun m c hm he hres =>
      (h.tells m c hm hres).quiet he (hlate m) (hsettled _) (hundecided _ hres ⟨m, c, hm, rfl⟩)

theorem Coherent.beside (h : s.Coherent journal owner reserved o) (hb : s.Beside journal s')
    (ha : o'.toStanding = o.toStanding) (hw : s'.Wired owner (s.circuit journal reserved o'))
    (hmade : ∀ p, s.Made p → s'.Made p)
    (hsettled : ∀ p x, (s.promise p).settlement? = some x → (s'.promise p).settlement? = some x)
    (hundecided : ∀ p ∈ reserved, s.Answers p → s.Undecided p → s'.Undecided p) :
    s'.Coherent journal owner reserved o' := by
  have hq : s.Quiet journal s' := .of_beside hb hsettled
  refine h.quiet hq ha hw hmade (fun m p hm => ?_) hsettled hundecided
  rw [module, hb.modules, ← module] at hm
  exact hq.leafSettled hsettled (h.leaves m p hm)

/-! ## Telling -/

theorem undecided_of_phase (h : (s'.promise p).phase = (s.promise p).phase) (hp : s.Undecided p) :
    s'.Undecided p := by rwa [Undecided, h]

theorem Settles.undecided {q : PromiseId} (h : s.Settles journal s' q) (hne : p ≠ q)
    (hp : s.Undecided p) : s'.Undecided p := by
  obtain hu | ⟨x, he⟩ | ⟨q', hf⟩ := h
  · exact undecided_of_phase (hu.phase p) hp
  · exact undecided_of_phase (he.other p hne) hp
  · exact undecided_of_phase (hf.other p hne) hp

def Fits (s : Machine σ κ) (m : ModuleId) (y : Settlement) : Prop :=
  ((s.cyclic m).error = none ∧ ∃ v, y = .fulfilled v) ∨
    ∃ e, (s.cyclic m).error = some e ∧ y = .rejected e

/-- The promise of a module that was evaluated is told so. -/
theorem Coherent.told (h : s.Coherent journal owner reserved o)
    {late : List (ModuleId × Capability)} (hl : o.late = (m, c) :: late)
    (hlate : ∀ d, (m, d) ∉ late) (hm : (s.cyclic m).status = .evaluated)
    (hs : s.Settles journal s' c.promise)
    (hy : s.Undecided c.promise → ∃ y, s.Ended journal s' c.promise y ∧ s.Fits m y) :
    s'.Coherent journal owner reserved { o with late } := by
  have hself : o.IsLate m := ⟨c, by rw [hl]; exact List.mem_cons_self ..⟩
  have hc : (s.cyclic m).capability = some c := h.late m c (by rw [hl]; exact List.mem_cons_self ..)
  have hrest : ∀ x, x ≠ m → (({ o with late } : Focus).IsLate x ↔ o.IsLate x) :=
    fun x => Focus.isLate_cons hl
  have hend : c.promise ∈ reserved → ∃ y, s.Ended journal s' c.promise y ∧ s.Fits m y := fun hres =>
    hy ((h.tells m c hc hres).waiting (.inl hself))
  have hbody : ∀ x, ¬s.IsBody c.promise x := fun x hx => h.wired.apart _ x hx ⟨m, c, hc, rfl⟩
  have hq : s.Quiet journal s' := .of_beside hs.beside fun p x hp => hs.settlement? hp
  refine h.changes hq rfl (fun x hx => by rw [hl]; exact List.mem_cons_of_mem _ hx)
    (fun _ => .inl) id ?_ (fun p hp => hs.made hp)
    (fun x p hx => ?_) (fun p x hp => hs.settlement? hp) (fun x hx hlx => ?_)
      fun x d hd he hres => ?_
  · change s'.Wired owner (s.circuit journal reserved o)
    by_cases hres : c.promise ∈ reserved
    · obtain ⟨y, he, -⟩ := hend hres
      exact h.wired.ended he (fun x hx => (hbody x hx).elim) (.inl rfl)
    · exact h.wired.settles hs ⟨(h.capable m c hc).2, hbody, fun hres' => (hres hres').elim⟩
  · rw [module, hs.beside.modules, ← module] at hx
    exact hq.leafSettled (fun p x hp => hs.settlement? hp) (h.leaves x p hx)
  · refine (hrest x ?_).2 hlx
    rintro rfl
    rw [hm] at hx
    obtain hx | hx := hx
    · exact hx
    · cases hx
  · by_cases e : x = m
    · subst e
      obtain rfl : d = c := Option.some.inj (hd.symm.trans hc)
      obtain ⟨y, hended, hfits⟩ := hend hres
      have hset : (s'.promise d.promise).settlement? = some y := by
        rw [← PromiseState.phase_snd, hended.settled (h.capable x d hd).2]
      refine ⟨fun hw => ?_, fun _ _ her => ?_, fun _ _ e her => ?_⟩
      · rw [he, hm] at hw
        obtain ⟨d', hd'⟩ | hw := hw
        · exact (hlate d' hd').elim
        · exact (hw rfl).elim
      · rw [he] at her
        obtain ⟨-, v, rfl⟩ | ⟨e, he', -⟩ := hfits
        · exact ⟨v, hset⟩
        · rw [her] at he'
          cases he'
      · rw [he] at her
        obtain ⟨he', -⟩ | ⟨e', he', rfl⟩ := hfits
        · rw [her] at he'
          cases he'
        · rw [her] at he'
          cases he'
          exact hset
    · refine (h.tells x d hd hres).quiet he (hrest x e) (fun v hv => hs.settlement? hv)
        (hs.undecided fun e' => e ?_)
      exact h.distinct x m d c hd hc e'

theorem Coherent.untoldYet (h : s.Coherent journal owner reserved o)
    {late : List (ModuleId × Capability)} (hl : o.late = (m, c) :: late)
    (hm : (s.cyclic m).status = .evaluatingAsync) :
    s.Coherent journal owner reserved { o with late } := by
  have hself : o.IsLate m := ⟨c, by rw [hl]; exact List.mem_cons_self ..⟩
  have hrest : ∀ x, x ≠ m → (({ o with late } : Focus).IsLate x ↔ o.IsLate x) :=
    fun x => Focus.isLate_cons hl
  refine h.changes (.refl s) rfl (fun x hx => by rw [hl]; exact List.mem_cons_of_mem _ hx)
    (fun _ => .inl) id h.wired
    (fun _ hp => hp) h.leaves (fun _ _ hp => hp) (fun x hx hlx => (hrest x ?_).2 hlx)
    fun x d hd he hres => ?_
  · rintro rfl
    rw [hm] at hx
    obtain hx | hx := hx
    · exact hx
    · cases hx
  · by_cases e : x = m
    · subst e
      refine ⟨fun _ => (h.tells x d hd hres).waiting (.inl hself), fun _ hev => ?_,
        fun _ hev => ?_⟩ <;>
        · rw [hm] at hev
          cases hev
    · exact (h.tells x d hd hres).quiet he (hrest x e) (fun _ hv => hv) id

/-! ## Calls of the host -/

theorem MaySettle.free (h : s.MaySettle reserved p) : s.Free (s.circuit journal reserved o) p :=
  ⟨h.made, h.body, h.answer⟩

theorem Coherent.settles (h : s.Coherent journal owner reserved o) {q : PromiseId}
    (hs : s.Settles journal s' q) (hq : s.Free (s.circuit journal reserved o) q) :
    s'.Coherent journal owner reserved o := by
  refine h.beside hs.beside rfl (h.wired.settles hs hq) (fun p hp => hs.made hp)
    (fun p x hp => hs.settlement? hp) fun p hres hp hd => hs.undecided ?_ hd
  rintro rfl
  exact hq.answer hres hp

theorem Coherent.newPromise (h : s.Coherent journal owner reserved o) {st : PromiseState}
    (hst : st.reactions = []) : (s.newPromise st).2.Coherent journal owner reserved o := by
  have hold : ∀ p, s.Made p → (s.newPromise st).2.promise p = s.promise p := fun p hp => by
    rw [promise_newPromise, if_neg (ne_nextPromise hp)]
  refine h.beside ⟨rfl, rfl, rfl, .refl s⟩ rfl (h.wired.newPromise hst)
    (fun p hp => made_newPromise st hp)
    (fun p x hp => ?_) fun p _ ⟨m, c, hm, hc⟩ hd => ?_
  · rw [hold p (made_of_resolved fun hu => ?_), hp]
    rw [← PromiseState.phase_snd, hu] at hp
    cases hp
  · rw [Undecided, hold p (hc ▸ (h.capable m c hm).2)]
    exact hd

theorem Coherent.elsewhere (h : s.Coherent journal owner reserved o) (he : s.Elsewhere journal s') :
    s'.Coherent journal owner reserved o := by
  refine h.quiet he.quiet rfl ?_ (fun p hp => by rwa [Made, he.size]) (fun m p hm => ?_)
    (fun p x hp => by rw [settlement?_of_phase (he.phase p), hp])
    fun p _ _ hd => undecided_of_phase (he.phase p) hd
  · refine h.wired.aside (fun p hp => by rwa [Made, he.size]) (fun p _ _ => he.phase p)
      (fun p r => by rw [Holds, he.held, Holds]) he.reactions (Nat.le_of_eq he.joins.1.symm)
      (fun r x => by rw [he.jobs]) fun p hp => .inl ?_
    obtain ⟨r, reaction, c, hr, hc⟩ | ⟨j, hj, hjp⟩ | ⟨t, i, ht, hi⟩ | ⟨q, ha⟩ := hp
    · rw [reaction?, he.reactions] at hr
      exact .inl ⟨r, reaction, c, hr, hc⟩
    · rw [he.joins.1] at hj
      rw [he.joins.2] at hjp
      exact .inr (.inl ⟨j, hj, hjp⟩)
    · exact .inr (.inr (.inl ⟨t, i, he.imports t i ht, hi⟩))
    · rw [he.jobs] at ha
      exact .inr (.inr (.inr ⟨q, ha⟩))
  · by_cases hn : s.Has m
    · rw [he.leaf m hn] at hm
      refine he.quiet.leafSettled (fun p x hp => ?_) (h.leaves m p hm)
      rw [settlement?_of_phase (he.phase p), hp]
    · have hnew := he.made m hn
      cases hk : (s'.module m).kind with
      | leaf state =>
        rw [hk] at hnew hm
        cases hnew
        cases hm
      | source r env c =>
        rw [hk] at hm
        cases hm
      | foreign i c =>
        rw [hk] at hm
        cases hm

theorem Coherent.attach (h : s.Coherent journal owner reserved o) {reaction : Reaction κ}
    (ha : s.Attached journal s' p reaction) (hr : s.MayAttach reserved reaction) :
    s'.Coherent journal owner reserved o := by
  have hbody := hr.handler
  refine h.beside ha.toBeside rfl ?_ (fun q hq => by rwa [Made, ha.size])
    (fun q x hq => by rw [settlement?_of_phase (ha.phase q), hq])
    fun q _ _ hd => undecided_of_phase (ha.phase q) hd
  refine h.wired.attached ha (fun c hc => (hr.capability c hc).free) (fun m e => ?_) hr.joined
    (fun m c code e => ?_) (.inl rfl)
  · rw [e] at hbody
    exact (hbody trivial).elim
  · rw [e] at hbody
    exact (hbody trivial).elim

theorem Coherent.call (ht : ∀ host ∈ hosts, ∀ p e h, journal (host.track p e h) = journal h)
    (h : s.Coherent journal owner reserved o) (hc : Call journal reserved hosts s s') :
    s'.Coherent journal owner reserved o := by
  cases hc with
  | elsewhere he => exact h.elsewhere he
  | newPromise hst => exact h.newPromise hst
  | @settle host c result hh hp =>
    exact h.settles (settle_settles s (ht host hh) c result) hp.free
  | @attach host p reaction hh hr => exact h.attach (attached (ht host hh) s p reaction) hr
  | newJoin hj =>
    exact h.beside ⟨rfl, rfl, rfl, .refl s⟩ rfl (h.wired.newJoin hj.free) (fun _ hp => hp)
      (fun _ _ hp => hp)
      fun _ _ _ hd => hd
  | newImport hi =>
    exact h.beside ⟨rfl, rfl, rfl, .refl s⟩ rfl (h.wired.newImport hi.free) (fun _ hp => hp)
      (fun _ _ hp => hp)
      fun _ _ _ hd => hd
  | queueImport referrer specifier ticket =>
    exact h.beside ⟨rfl, rfl, rfl, .refl s⟩ rfl (h.wired.enqueueImport referrer specifier ticket)
      (fun _ hp => hp) (fun _ _ hp => hp) fun _ _ _ hd => hd

theorem Coherent.calls (ht : ∀ host ∈ hosts, ∀ p e h, journal (host.track p e h) = journal h)
    (h : s.Coherent journal owner reserved o) (hc : Calls journal reserved hosts s s') :
    s'.Coherent journal owner reserved o := by
  induction hc with
  | refl => exact h
  | tail _ hc ih => exact ih.call ht hc

end Machine

end ModuleGraph

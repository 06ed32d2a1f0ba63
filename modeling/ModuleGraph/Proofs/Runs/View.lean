import ModuleGraph.Proofs.Evaluation.Search
import ModuleGraph.Proofs.Linking.Open
import ModuleGraph.Proofs.Runs.Conduct

/-! # The graph of a machine

The graph of a machine shows its modules and its journal to the theory of evaluation. Calls of the
host leave it undisturbed. -/

namespace ModuleGraph

open Relation

variable {σ κ : Type} {journal : σ → Journal} {reserved : Set PromiseId} {hosts : Set (Host σ κ)}

structure Agenda where
  stack : List ModuleId
  path : List Frame
  visits : Nat
  ready : List ModuleId
  released : List ModuleId
  debt : List ModuleId
  doom : List ModuleId

namespace Agenda

def rest : Agenda := ⟨[], [], 0, [], [], [], []⟩

def search (t : Traversal) (path : List Frame) : Agenda := ⟨t.stack, path, t.visits, [], [], [], []⟩

def run (ready released debt doom : List ModuleId) : Agenda :=
  ⟨[], [], 0, ready, released, debt, doom⟩

end Agenda

/-- The status of a module is that of its fields, or of the leaf that it is. -/
theorem ModuleKind.status_congr {k k' : ModuleKind} (hc : k'.cyclic? = k.cyclic?)
    (hl : k'.leaf? = k.leaf?) : k'.status = k.status := by
  cases k <;> cases k' <;> cases hc <;> cases hl <;> rfl

def Cyclic.IsBlank (c : Cyclic) : Prop := c.status = .unlinked ∧ c.visit = none ∧ c.ancestor = none

namespace Machine

variable {s s' s'' : Machine σ κ} {m n x : ModuleId} {a : Agenda}

theorem cycleRoot_eq (s : Machine σ κ) (m : ModuleId) :
    s.cycleRoot m = (s.cyclic m).root.getD m := by
  rw [cycleRoot, cycleRoot?, cyclic]
  cases s.cyclic? m <;> rfl

def LeafDone (s : Machine σ κ) (m : ModuleId) : Prop :=
  ∃ p v, (s.module m).kind.leaf? = some (.evaluated p) ∧
    (s.promise p).settlement? = some (.fulfilled v)

/-- A body without top-level await has awaited, and the value is the error that was made for it. -/
def AwaitedAmiss (journal : σ → Journal) (s : Machine σ κ) (m : ModuleId) (e : Value) : Prop :=
  ∃ before i, Entry.started m before ∈ journal s.host ∧ before.hasAwait m = false ∧
    Entry.waited m i ∈ journal s.host ∧ e = .error i ∧ s.errors[i.index]? =
      some ⟨.syntaxError, "await is only valid in modules with top-level await"⟩

/-- A module has thrown a value: its body did, or the host that was asked for one of its requests,
or its body has awaited where it must not. -/
def Threw (journal : σ → Journal) (s : Machine σ κ) (m : ModuleId) (e : Value) : Prop :=
  Entry.threw m e ∈ journal s.host ∨ (∃ r, Entry.refused m r e ∈ journal s.host) ∨
    s.AwaitedAmiss journal m e

theorem Threw.mono {e : Value} (h : s.Threw journal m e)
    (hj : ∀ x ∈ journal s.host, x ∈ journal s'.host) (he : s.KeepsErrors s') :
    s'.Threw journal m e := by
  obtain h | ⟨r, h⟩ | ⟨before, i, hs, ha, hw, rfl, hi⟩ := h
  · exact .inl (hj _ h)
  · exact .inr (.inl ⟨r, hj _ h⟩)
  · exact .inr (.inr ⟨before, i, hj _ hs, ha, hj _ hw, rfl, he _ _ hi⟩)

/-- A module has thrown a value unless resolution is unstable. -/
def Throws (journal : σ → Journal) (s : Machine σ κ) (m : ModuleId) (e : Value) : Prop :=
  (journal s.host).Stable → s.Threw journal m e

theorem Throws.mono {e : Value} (h : s.Throws journal m e)
    (hj : ∃ k, journal s'.host = journal s.host ++ k) (he : s.KeepsErrors s') :
    s'.Throws journal m e := fun hst => by
  obtain ⟨k, hk⟩ := hj
  rw [hk] at hst
  refine (h hst.of_prefix).mono (fun x hx => ?_) he
  rw [hk]
  exact List.mem_append_left _ hx

def graph (journal : σ → Journal) (a : Agenda) (s : Machine σ κ) : Graph :=
  { fields := s.cyclic
    cyclic := fun m => s.isCyclic m
    leaf := s.LeafDone
    threw := s.Throws journal
    journal := journal s.host
    size := s.modules.size
    nextTurn := s.nextTurn
    stack := a.stack
    path := a.path
    visits := a.visits
    ready := a.ready
    released := a.released
    debt := a.debt
    doom := a.doom }

/-! ## New modules -/

structure Untouched (s : Machine σ κ) (m : ModuleId) : Prop where
  idle : (s.cyclic m).status.IsIdle
  fresh : (s.cyclic m).IsFresh
  capability : (s.cyclic m).capability = none
  blank : (s.cyclic m).IsBlank

theorem untouched_of_isNew (h : (s.module m).kind.IsNew) : s.Untouched m := by
  suffices hc : (s.cyclic m).status.IsIdle ∧ (s.cyclic m).IsFresh ∧
      (s.cyclic m).capability = none ∧ (s.cyclic m).IsBlank from
    ⟨hc.1, hc.2.1, hc.2.2.1, hc.2.2.2⟩
  rw [cyclic, cyclic?_eq]
  cases hk : (s.module m).kind with
  | source r env c =>
    rw [hk] at h
    obtain ⟨-, hc⟩ := h
    rw [ModuleKind.cyclic?, Option.getD_some, hc]
    exact ⟨trivial, ⟨rfl, rfl, rfl, rfl⟩, rfl, rfl, rfl, rfl⟩
  | foreign i c =>
    rw [hk] at h
    obtain ⟨-, hc⟩ := h
    rw [ModuleKind.cyclic?, Option.getD_some, hc]
    exact ⟨trivial, ⟨rfl, rfl, rfl, rfl⟩, rfl, rfl, rfl, rfl⟩
  | leaf state => exact ⟨trivial, ⟨rfl, rfl, rfl, rfl⟩, rfl, rfl, rfl, rfl⟩

theorem requested_of_not_has (h : ¬s.Has m) : (s.cyclic m).requested = [] := by
  rw [cyclic, cyclic?_eq, module_of_not_has h]
  rfl

theorem leaf?_of_not_has (h : ¬s.Has m) : (s.module m).kind.leaf? = none := by
  rw [module_of_not_has h]
  rfl

theorem has_of_leaf {state : LeafState} (h : (s.module m).kind.leaf? = some state) : s.Has m := by
  by_contra hm
  rw [leaf?_of_not_has hm] at h
  cases h

theorem not_isCyclic_of_leaf {state : LeafState} (h : (s.module m).kind.leaf? = some state) :
    s.isCyclic m = false := by
  rw [isCyclic, cyclic?_eq, ModuleKind.eq_of_leaf? h]
  rfl

theorem not_isCyclic_of_leafDone (h : s.LeafDone m) : s.isCyclic m = false := by
  obtain ⟨p, v, hk, -⟩ := h
  exact not_isCyclic_of_leaf hk

theorem isCyclic_of_not_has (h : ¬s.Has m) : s.isCyclic m = true := by
  rw [isCyclic, cyclic?_eq, module_of_not_has h]
  rfl

/-! ## Linked modules -/

/-- Whatever is linked can run, and all its requests are answered by modules that are linked too.
What is not linked is in no search. -/
structure LinkClosed (journal : σ → Journal) (s : Machine σ κ) : Prop where
  blank : ∀ x, ¬(s.status x).IsLinked → (s.cyclic x).IsBlank
  answered : ∀ x, (s.status x).IsLinked → ∀ r ∈ s.requested x, s.Answered journal x r
  runnable : ∀ x, (s.status x).IsLinked → (s.module x).kind.IsRunnable

theorem LinkClosed.mono (h : s.LinkClosed journal)
    (hlinked : ∀ x, (s'.status x).IsLinked ↔ (s.status x).IsLinked)
    (hblank : ∀ x, ¬(s.status x).IsLinked → (s.cyclic x).IsBlank → (s'.cyclic x).IsBlank)
    (hrequested : ∀ x, (s.status x).IsLinked → s'.requested x = s.requested x)
    (hrunnable : ∀ x, (s.status x).IsLinked → (s.module x).kind.IsRunnable →
      (s'.module x).kind.IsRunnable)
    (hj : ∀ e ∈ journal s.host, e ∈ journal s'.host) : s'.LinkClosed journal where
  blank x hx := by
    rw [hlinked] at hx
    exact hblank x hx (h.blank x hx)
  answered x hx r hr := by
    rw [hlinked] at hx
    rw [hrequested x hx] at hr
    obtain ⟨n, hn, hl⟩ := h.answered x hx r hr
    exact ⟨n, hj _ hn, (hlinked n).2 hl⟩
  runnable x hx := by
    rw [hlinked] at hx
    exact hrunnable x hx (h.runnable x hx)

/-- What a linked module requests is linked, if resolution is stable. -/
theorem LinkClosed.linked (h : s.LinkClosed journal) (hst : (journal s.host).Stable) {r : String}
    (hm : (s.status m).IsLinked) (hr : r ∈ s.requested m)
    (hn : Entry.resolved m r n ∈ journal s.host) : (s.status n).IsLinked := by
  obtain ⟨n', hn', hl⟩ := h.answered m hm r hr
  rwa [hst m r n n' hn hn']

/-! ## Quiet changes -/

structure Quiet (journal : σ → Journal) (s s' : Machine σ κ) : Prop where
  size : s.modules.size ≤ s'.modules.size
  cyclic : ∀ m, s.Has m → s'.cyclic? m = s.cyclic? m
  leaf : ∀ m, s.LeafDone m → s'.LeafDone m
  evaluated : ∀ m p, (s.module m).kind.leaf? = some (.evaluated p) →
    (s'.module m).kind.leaf? = some (.evaluated p)
  linked : ∀ m, (s'.status m).IsLinked ↔ (s.status m).IsLinked
  runnable : ∀ m, s.Has m → (s.module m).kind.IsRunnable → (s'.module m).kind.IsRunnable
  made : ∀ m, ¬s.Has m → s'.Untouched m
  errors : s.KeepsErrors s'
  noted : ∃ k : Journal, k.Answers ∧ journal s'.host = journal s.host ++ k
  nextTurn : s'.nextTurn = s.nextTurn

namespace Quiet

theorem has (h : s.Quiet journal s') (hm : s.Has m) : s'.Has m := Nat.lt_of_lt_of_le hm h.size

theorem refl (s : Machine σ κ) : s.Quiet journal s :=
  ⟨Nat.le_refl _, fun _ _ => rfl, fun _ hl => hl, fun _ _ hl => hl, fun _ => Iff.rfl,
    fun _ _ hr => hr, fun _ hm => untouched_of_isNew (isNew_of_not_has hm), .refl s,
    ⟨[], Journal.answers_nil, (List.append_nil _).symm⟩, rfl⟩

theorem trans (h : s.Quiet journal s') (h' : s'.Quiet journal s'') : s.Quiet journal s'' where
  size := h.size.trans h'.size
  cyclic m hm := (h'.cyclic m (h.has hm)).trans (h.cyclic m hm)
  leaf m hm := h'.leaf m (h.leaf m hm)
  evaluated m p hm := h'.evaluated m p (h.evaluated m p hm)
  linked m := (h'.linked m).trans (h.linked m)
  runnable m hm hr := h'.runnable m (h.has hm) (h.runnable m hm hr)
  errors := h.errors.trans h'.errors
  made m hm := by
    by_cases hm' : s'.Has m
    · have hu := h.made m hm
      have he : s''.cyclic m = s'.cyclic m := by
        rw [Machine.cyclic, Machine.cyclic, h'.cyclic m hm']
      exact ⟨he ▸ hu.idle, he ▸ hu.fresh, he ▸ hu.capability, he ▸ hu.blank⟩
    · exact h'.made m hm'
  noted := by
    obtain ⟨k, hk, e⟩ := h.noted
    obtain ⟨k', hk', e'⟩ := h'.noted
    exact ⟨k ++ k', hk.append hk', by rw [e', e, List.append_assoc]⟩
  nextTurn := h'.nextTurn.trans h.nextTurn

theorem fields (h : s.Quiet journal s') (hm : s.Has m) : s'.cyclic m = s.cyclic m := by
  rw [Machine.cyclic, h.cyclic m hm, ← Machine.cyclic]

/-- The fields of a module that evaluation has touched. -/
theorem awake (h : s.Quiet journal s') (hm : ¬(s.cyclic m).status.IsIdle) :
    s'.cyclic m = s.cyclic m := by
  refine h.fields ?_
  by_contra hn
  exact hm (untouched_of_isNew (isNew_of_not_has hn)).idle

theorem isCyclic (h : s.Quiet journal s') (hm : s'.isCyclic m) : s.isCyclic m := by
  by_cases hn : s.Has m
  · rwa [Machine.isCyclic, h.cyclic m hn] at hm
  · exact isCyclic_of_not_has hn

theorem starts (h : s.Quiet journal s') (m : ModuleId) :
    (journal s'.host).starts m = (journal s.host).starts m := by
  obtain ⟨k, hk, e⟩ := h.noted
  rw [e, Journal.starts_append, hk.starts_eq, Nat.add_zero]

theorem mem_journal (h : s.Quiet journal s') {e : Entry} (he : e ∈ journal s.host) :
    e ∈ journal s'.host := by
  obtain ⟨k, -, hk⟩ := h.noted
  rw [hk]
  exact List.mem_append_left _ he

theorem linkClosed (h : s.Quiet journal s') (hs : s.LinkClosed journal) :
    s'.LinkClosed journal :=
  hs.mono h.linked
    (fun x _ hb => (em (s.Has x)).elim (fun hx => by rwa [h.fields hx])
      fun hx => (h.made x hx).blank)
    (fun x hx => by rw [requested, h.cyclic x (has_of_isLinked hx), requested])
    (fun x hx => h.runnable x (has_of_isLinked hx)) fun _ he => h.mem_journal he

theorem throws (h : s.Quiet journal s') {e : Value} (hm : s.Throws journal m e) :
    s'.Throws journal m e := by
  obtain ⟨k, -, hk⟩ := h.noted
  exact hm.mono ⟨k, hk⟩ h.errors

theorem undisturbed (h : s.Quiet journal s') (a : Agenda) (hs : (s.graph journal a).Sound) :
    (s.graph journal a).Undisturbed (s'.graph journal a) where
  noted _ he := h.mem_journal he
  leaf := h.leaf
  threw _ _ hm := h.throws hm
  requested x r hr := by
    have hr' : r ∈ (s.cyclic x).requested := hr
    by_cases hx : s.Has x
    · change r ∈ (s'.cyclic x).requested
      rwa [h.fields hx]
    · rw [requested_of_not_has hx] at hr'
      cases hr'
  idle x hi := by
    have hi' : (s.cyclic x).status.IsIdle := hi
    have hx := (hs.shaped x).idle hi
    refine ⟨?_, ?_, fun hc => (h.starts x).trans (hx.2 (h.isCyclic hc))⟩
    · change (s'.cyclic x).status.IsIdle
      by_cases hn : s.Has x
      · rwa [h.fields hn]
      · exact (h.made x hn).idle
    · change (s'.cyclic x).IsFresh
      by_cases hn : s.Has x
      · rw [h.fields hn]
        exact hx.1
      · exact (h.made x hn).fresh
  awake x hi := ⟨⟨_, _, h.awake hi⟩, h.starts x⟩
  size := h.size
  nextTurn := h.nextTurn
  stack := rfl
  ready := rfl
  released := rfl
  debt := rfl
  doom := rfl

theorem sound (h : s.Quiet journal s') {a : Agenda} (hs : (s.graph journal a).Sound) :
    (s'.graph journal a).Sound := (h.undisturbed a hs).sound hs

theorem calm (h : s.Quiet journal s') {a : Agenda} (hs : (s.graph journal a).Sound) :
    (s.graph journal a).Calm (s'.graph journal a) where
  toUndisturbed := h.undisturbed a hs
  path := rfl
  visits := rfl
  ancestor x hx := by
    change (s'.cyclic x).ancestor = (s.cyclic x).ancestor
    rw [h.awake hx]

/-- What stands beside the modules of the machine, with the promises of evaluated leaves. -/
theorem of_beside (h : s.Beside journal s') (hp : ∀ p x, (s.promise p).settlement? = some x →
    (s'.promise p).settlement? = some x) : s.Quiet journal s' := by
  have hmodule : ∀ m, s'.module m = s.module m := fun m => by rw [module, h.modules, module]
  refine ⟨by rw [h.modules], fun m _ => ?_, fun m hm => ?_, fun m p => by rw [hmodule]; exact id,
    fun m => by rw [status, hmodule, status], fun m _ => by rw [hmodule]; exact id,
      fun m hm => ?_, h.errors,
    ⟨[], Journal.answers_nil, by rw [h.journal, List.append_nil]⟩, h.nextTurn⟩
  · rw [Machine.cyclic?, hmodule, ← Machine.cyclic?]
  · obtain ⟨p, v, hk, hv⟩ := hm
    exact ⟨p, v, by rw [hmodule, hk], hp p _ hv⟩
  · refine untouched_of_isNew ?_
    rw [hmodule]
    exact isNew_of_not_has hm

end Quiet

/-- Only objects, errors and what is taken from the imports differ. -/
theorem Elsewhere.of_beside (hb : s.Beside journal s') (hpromises : s'.promises = s.promises)
    (hreactions : s'.reactions = s.reactions) (hjoins : s'.joins.size = s.joins.size ∧
      ∀ j, (s'.join j).capability = (s.join j).capability)
    (himports : ∀ t i, s'.import? t = some i → s.import? t = some i) (hjobs : s'.jobs = s.jobs) :
    s.Elsewhere journal s' := by
  have hm : ∀ m, s'.module m = s.module m := fun m => by rw [module, module, hb.modules]
  have hp : ∀ p, s'.promise p = s.promise p := fun p => by rw [promise, promise, hpromises]
  have hhas : ∀ m, s'.Has m ↔ s.Has m := fun m => by rw [Has, Has, hb.modules]
  exact ⟨fun m => (hhas m).2, fun m _ => by rw [cyclic?, hm]; rfl, fun m _ => by rw [hm],
    fun m _ hr => by rwa [hm], fun m hn => isNew_of_not_has fun h => hn ((hhas m).1 h), hb.errors,
    ⟨[], Journal.answers_nil, by rw [hb.journal, List.append_nil]⟩, by rw [hpromises],
    fun p => by rw [hp], fun p => by rw [hp], hreactions, hjoins, himports, hjobs, hb.nextTurn⟩

theorem Elsewhere.newError (s : Machine σ κ) (kind : ErrorKind) (message : String) :
    s.Elsewhere journal (s.newError kind message).2 :=
  .of_beside ⟨rfl, rfl, rfl, keepsErrors_newError s kind message⟩ rfl rfl ⟨rfl, fun _ => rfl⟩
    (fun _ _ hi => hi) rfl

theorem Elsewhere.quiet (h : s.Elsewhere journal s') : s.Quiet journal s' := by
  have hsettled : ∀ p, (s'.promise p).settlement? = (s.promise p).settlement? := fun p => by
    rw [← PromiseState.phase_snd, h.phase, PromiseState.phase_snd]
  refine ⟨?_, h.cyclic, fun m hm => ?_, fun m p hm => by rw [h.leaf m (has_of_leaf hm), hm],
    fun m => ?_,
    h.runnable, fun m hm => untouched_of_isNew (h.made m hm), h.errors, h.noted, h.nextTurn⟩
  · by_contra hlt
    have := h.has ⟨s'.modules.size⟩ (Nat.not_le.1 hlt)
    exact Nat.lt_irrefl _ this
  · obtain ⟨p, v, hk, hv⟩ := hm
    exact ⟨p, v, by rw [h.leaf m (has_of_leaf hk), hk], by rw [hsettled, hv]⟩
  · by_cases hm : s.Has m
    · rw [status, status, ModuleKind.status_congr (h.cyclic m hm) (h.leaf m hm)]
    · rw [status, status, (h.made m hm).isUnlinked.status_eq,
        (isNew_of_not_has hm).isUnlinked.status_eq]

theorem settlement?_of_phase {p : PromiseId} (h : (s'.promise p).phase = (s.promise p).phase) :
    (s'.promise p).settlement? = (s.promise p).settlement? := by
  rw [← PromiseState.phase_snd, h, PromiseState.phase_snd]

/-- A settled promise stays as it is when something else is settled. -/
theorem Settles.settlement? {p q : PromiseId} {x : Settlement} (h : s.Settles journal s' p)
    (hq : (s.promise q).settlement? = some x) : (s'.promise q).settlement? = some x := by
  obtain hu | ⟨y, he⟩ | ⟨q', hf⟩ := h
  · rw [settlement?_of_phase (hu.phase q), hq]
  · have hne : q ≠ p := by
      rintro rfl
      rw [he.pending] at hq
      cases hq
    rw [settlement?_of_phase (he.other q hne), hq]
  · rw [hf.settled, hq]

theorem Settles.beside {p : PromiseId} (h : s.Settles journal s' p) : s.Beside journal s' := by
  obtain hu | ⟨y, he⟩ | ⟨q', hf⟩ := h
  · exact hu.toBeside
  · exact he.toBeside
  · exact hf.toBeside

theorem Settles.made {p q : PromiseId} (h : s.Settles journal s' p) (hq : s.Made q) :
    s'.Made q := by
  obtain hu | ⟨y, he⟩ | ⟨q', hf⟩ := h
  · rwa [Made, hu.size]
  · rwa [Made, he.size]
  · rwa [Made, hf.size]

/-- A call of the host changes no module, or nothing that has to do with promises. -/
theorem Call.elsewhere_or_beside
    (ht : ∀ host ∈ hosts, ∀ p e h, journal (host.track p e h) = journal h)
    (h : Call journal reserved hosts s s') : s.Elsewhere journal s' ∨
      s.Beside journal s' ∧ ∀ p x, (s.promise p).settlement? = some x →
        (s'.promise p).settlement? = some x := by
  cases h with
  | elsewhere h => exact .inl h
  | newPromise h =>
    refine .inr ⟨⟨rfl, rfl, rfl, .refl s⟩, fun p x hp => ?_⟩
    rw [promise_newPromise, if_neg]
    · exact hp
    · rintro rfl
      rw [promise_of_not_made (not_made_nextPromise s)] at hp
      cases hp
  | @settle host c result hh hc =>
    have hs := settle_settles s (ht host hh) c result
    exact .inr ⟨hs.beside, fun p x hp => hs.settlement? hp⟩
  | @attach host p reaction hh hr =>
    have ha := attached (ht host hh) s p reaction
    exact .inr ⟨ha.toBeside, fun q x hq => by rw [settlement?_of_phase (ha.phase q), hq]⟩
  | newJoin h => exact .inr ⟨⟨rfl, rfl, rfl, .refl s⟩, fun _ _ hp => hp⟩
  | newImport h => exact .inr ⟨⟨rfl, rfl, rfl, .refl s⟩, fun _ _ hp => hp⟩
  | queueImport referrer specifier ticket => exact .inr ⟨⟨rfl, rfl, rfl, .refl s⟩, fun _ _ hp => hp⟩

theorem quiet_of_call (ht : ∀ host ∈ hosts, ∀ p e h, journal (host.track p e h) = journal h)
    (h : Call journal reserved hosts s s') : s.Quiet journal s' := by
  obtain he | ⟨hb, hp⟩ := h.elsewhere_or_beside ht
  · exact he.quiet
  · exact .of_beside hb hp

theorem quiet_of_calls (ht : ∀ host ∈ hosts, ∀ p e h, journal (host.track p e h) = journal h)
    (h : Calls journal reserved hosts s s') : s.Quiet journal s' := by
  induction h with
  | refl => exact .refl s
  | tail _ hc ih => exact ih.trans (quiet_of_call ht hc)

end Machine

end ModuleGraph

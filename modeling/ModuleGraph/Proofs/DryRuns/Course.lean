import Mathlib.Algebra.GroupWithZero.Nat
import ModuleGraph.CommandLine.Report
import ModuleGraph.Proofs.Along
import ModuleGraph.Proofs.DryRuns.Watching

/-! # The course of a dry run

Throughout a dry run the modules stay as they were linked, no module fails, and no promise is
rejected. The events are those that the journal tells. Each reaction ends a body, or goes on with
one that was started, so that a reaction costs one job. A body that starts attaches two reactions
at most. This bounds the number of jobs. -/

namespace ModuleGraph

open Relation

variable {σ κ : Type}

/-! ## The load of a machine -/

/-- How many reactions are still to run: those that are queued, and those that a promise holds. -/
def Machine.load (s : Machine σ κ) : Nat :=
  s.jobs.length + (s.promises.toList.map (·.reactions.length)).sum

namespace Machine

variable {s s' : Machine σ κ} {p : PromiseId} {track : Tracker σ}

theorem load_newPromise {st : PromiseState} (h : st.reactions = []) :
    (s.newPromise st).2.load = s.load := by
  simp [load, newPromise, h]

theorem sum_set_add {l : List ℕ} {i : ℕ} (h : i < l.length) (a : ℕ) :
    (l.set i a).sum + l[i] = l.sum + a := by
  induction l generalizing i with
  | nil => exact absurd h (Nat.not_lt_zero _)
  | cons x rest ih =>
    cases i with
    | zero => simp only [List.set_cons_zero, List.sum_cons, List.getElem_cons_zero]; omega
    | succ i =>
      have := ih (Nat.lt_of_succ_lt_succ h)
      simp only [List.set_cons_succ, List.sum_cons, List.getElem_cons_succ]
      omega

theorem load_setPromise (hp : s.Made p) (st : PromiseState) :
    (s.setPromise p st).load + (s.promise p).reactions.length =
      s.load + st.reactions.length := by
  have hlt : p.index < (s.promises.toList.map (·.reactions.length)).length := by
    rw [List.length_map, Array.length_toList]
    exact hp
  have hsum := sum_set_add hlt st.reactions.length
  have hget : (s.promises.toList.map (·.reactions.length))[p.index] =
      (s.promise p).reactions.length := by
    rw [List.getElem_map, Array.getElem_toList, promise, Array.getD_eq_getD_getElem?,
      Array.getElem?_eq_getElem hp, Option.getD_some]
    rfl
  rw [hget] at hsum
  rw [load, load, setPromise, Array.toList_setIfInBounds, List.map_set]
  dsimp only
  omega

theorem load_fulfil (s : Machine σ κ) (p : PromiseId) (v : Value) :
    (s.fulfil p v).load = s.load := by
  rw [fulfil]
  cases hs : s.promise p with
  | fulfilled | rejected => rfl
  | pending rs b =>
    by_cases hp : s.Made p
    · have hset := load_setPromise hp (.fulfilled v)
      rw [hs] at hset
      have hjobs : ((s.setPromise p (.fulfilled v)).enqueueReactions rs (.fulfilled v)).load =
          (s.setPromise p (.fulfilled v)).load + rs.length := by
        simp [load, enqueueReactions]
        omega
      have hnone : (PromiseState.fulfilled v).reactions.length = 0 := rfl
      have hrs : (PromiseState.pending rs b).reactions.length = rs.length := rfl
      dsimp only
      omega
    · have hrs := reactions_of_not_made hp
      rw [hs] at hrs
      obtain rfl : rs = [] := hrs
      simp [setPromise_of_not_made hp, load, enqueueReactions]

theorem load_markResolved (s : Machine σ κ) (p : PromiseId) : (s.markResolved p).load = s.load := by
  rw [markResolved]
  cases hs : s.promise p with
  | fulfilled | rejected => rfl
  | pending rs b =>
    by_cases hp : s.Made p
    · have hset := load_setPromise hp (.pending rs true)
      rw [hs] at hset
      exact Nat.add_right_cancel hset
    · dsimp only
      rw [setPromise_of_not_made hp]

theorem load_resolve_undefined (s : Machine σ κ) (c : Capability) :
    (s.resolve track c .undefined).load = s.load := by
  rw [resolve]
  split
  · rfl
  · dsimp only
    rw [load_fulfil, load_markResolved]

/-- A reaction that is attached to a promise that was not rejected. -/
theorem load_attach_le (hp : ∀ e h, s.promise p ≠ .rejected e h) (reaction : Reaction κ) :
    (s.attach track p reaction).load ≤ s.load + 1 := by
  rw [attach_eq]
  cases hs : s.promise p with
  | rejected e h => exact (hp e h hs).elim
  | fulfilled v =>
    simp only [load, enqueue, newReaction, List.length_append, List.length_singleton]
    omega
  | pending rs b =>
    have hload : (s.newReaction reaction).2.load = s.load := rfl
    by_cases hmade : (s.newReaction reaction).2.Made p
    · have hset := load_setPromise hmade (.pending (rs ++ [s.nextReaction]) b)
      have hprom : (s.newReaction reaction).2.promise p = .pending rs b := hs
      rw [hprom, hload] at hset
      have hold : (PromiseState.pending rs b).reactions.length = rs.length := rfl
      have hnew : (PromiseState.pending (rs ++ [s.nextReaction]) b).reactions.length =
          rs.length + 1 := List.length_append
      dsimp only
      omega
    · dsimp only
      rw [setPromise_of_not_made hmade, hload]
      exact Nat.le_succ _

/-- A host that does not track rejections learns nothing of promises. -/
theorem Aside.host_eq (ht : ∀ p e h, track p e h = h) (h : s.Aside track s') :
    s'.host = s.host := by
  obtain ⟨-, h⟩ := h
  generalize s'.host = w at h
  induction h with
  | refl => rfl
  | tail _ hstep ih =>
    obtain ⟨p, e, hstep⟩ := hstep
    rw [hstep, ht, ih]

end Machine

namespace FileSystem

variable {b : Desk} {s s' s'' : Watched} {m n x : ModuleId} {p : PromiseId} {request : String}
variable {w : Workspace × Journal} {j k : Journal}

/-! ## The modules -/

/-- The modules are those that were linked, and none of them has failed. -/
structure Cast (b : Desk) (s : Watched) : Prop where
  size : s.modules.size = b.modules.size
  label : ∀ m, (s.module m).label = (b.module m).label
  requested : ∀ m, s.requested m = b.requested m
  hasAwait : ∀ m, s.hasAwait m = b.hasAwait m
  own : ∀ m, s.Has m → s.BindsOwn m
  errors : ∀ m, (s.cyclic m).error = none
  parents : ∀ m, ∀ x ∈ (s.cyclic m).parents, s.Has x

namespace Cast

theorem has (h : Cast b s) (m : ModuleId) : s.Has m ↔ b.Has m := by
  rw [Machine.Has, Machine.Has, h.size]

theorem isCyclic (h : Cast b s) (m : ModuleId) : s.isCyclic m := by
  by_cases hm : s.Has m
  · obtain ⟨record, hr⟩ := (h.own m hm).record
    rw [Machine.record?] at hr
    rw [Machine.isCyclic, Machine.cyclic?_eq]
    cases hk : (s.module m).kind with
    | source => rfl
    | foreign | leaf => rw [hk] at hr; cases hr
  · exact Machine.isCyclic_of_not_has hm

theorem cyclic?_eq (h : Cast b s) (m : ModuleId) : s.cyclic? m = some (s.cyclic m) := by
  obtain ⟨c, hc⟩ := Option.isSome_iff_exists.1 (h.isCyclic m)
  rw [hc, Machine.cyclic_of_cyclic? hc]

theorem requested_eq (h : Cast b s) (m : ModuleId) : (s.cyclic m).requested = b.requested m := by
  rw [← h.requested, Machine.requested_of_cyclic? (h.cyclic?_eq m)]

theorem hasAwait_eq (h : Cast b s) (m : ModuleId) : (s.cyclic m).hasAwait = b.hasAwait m := by
  rw [← h.hasAwait, Machine.hasAwait, h.cyclic?_eq]
  rfl

theorem kind (h : Cast b s) (hm : s.Has m) : ∃ record env c, (s.module m).kind =
    .source record env c := by
  obtain ⟨record, hr⟩ := (h.own m hm).record
  rw [Machine.record?] at hr
  cases hk : (s.module m).kind with
  | source record env c => exact ⟨record, env, c, rfl⟩
  | foreign | leaf => rw [hk] at hr; cases hr

theorem change (h : Cast b s) (hsize : s'.modules.size = s.modules.size)
    (hlabel : ∀ m, (s'.module m).label = (s.module m).label)
    (hcyclic : ∀ m, s'.cyclic? m = s.cyclic? m) (hown : ∀ m, s.BindsOwn m → s'.BindsOwn m) :
    Cast b s' := by
  have hhas : ∀ x, s'.Has x ↔ s.Has x := fun x => by rw [Machine.Has, hsize, Machine.Has]
  have hfields : ∀ x, s'.cyclic x = s.cyclic x := fun x => by
    rw [Machine.cyclic, hcyclic, Machine.cyclic]
  refine ⟨hsize.trans h.size, fun m => (hlabel m).trans (h.label m), fun m => ?_, fun m => ?_,
    fun m hm => hown m (h.own m ((hhas m).1 hm)), fun m => by rw [hfields, h.errors],
    fun m x hx => (hhas x).2 (h.parents m x (hfields m ▸ hx))⟩
  · rw [← h.requested, Machine.requested, hcyclic, Machine.requested]
  · rw [← h.hasAwait, Machine.hasAwait, hcyclic, Machine.hasAwait]

theorem of_modules (h : Cast b s) (hs : s'.modules = s.modules) : Cast b s' := by
  have hmodule : ∀ m, s'.module m = s.module m := fun m => by
    rw [Machine.module, hs, Machine.module]
  refine h.change (by rw [hs]) (fun m => by rw [hmodule]) (fun m => ?_) fun m hm =>
    hm.of_kind (by rw [hmodule])
  rw [Machine.cyclic?_eq, hmodule, Machine.cyclic?_eq]

end Cast

structure Tame (s : Watched) (c c' : Cyclic) : Prop where
  requested : c'.requested = c.requested
  hasAwait : c'.hasAwait = c.hasAwait
  error : c'.error = c.error
  parents : ∀ x ∈ c'.parents, x ∈ c.parents ∨ s.Has x
  awake : c'.status.IsIdle → c.status.IsIdle

theorem fields_updateCyclic_cases {f : Cyclic → Cyclic} (s : Watched) (m x : ModuleId) :
    (s.updateCyclic m f).cyclic x = s.cyclic x ∨
      (s.updateCyclic m f).cyclic x = f (s.cyclic x) := by
  by_cases e : x = m
  · subst e
    by_cases hx : s.Has x
    · cases hc : s.cyclic? x with
      | none => exact .inl (by rw [Machine.updateCyclic_of_leaf f hc])
      | some c =>
        rw [Machine.cyclic_updateCyclic_self f hx hc, Machine.cyclic_of_cyclic? hc]
        exact .inr rfl
    · exact .inl (by
        rw [Machine.updateCyclic, Machine.updateKind, Machine.updateModule_of_not_has _ hx])
  · exact .inl (Machine.cyclic_updateCyclic_of_ne f e)

theorem Cast.updateCyclic (h : Cast b s) {f : Cyclic → Cyclic} (hf : ∀ c, Tame s c (f c)) :
    Cast b (s.updateCyclic m f) := by
  have hhas : ∀ x, (s.updateCyclic m f).Has x ↔ s.Has x := fun x => Machine.has_updateCyclic f
  refine ⟨(Machine.size_updateModule s m _).trans h.size, fun x => ?_, fun x => ?_, fun x => ?_,
    fun x hx => ?_, fun x => ?_, fun x y hy => (hhas y).2 ?_⟩
  · rw [← h.label x]
    by_cases hm : s.Has m
    · rw [Machine.updateCyclic, Machine.updateKind, Machine.module_updateModule _ _ _ _ hm]
      split <;> rfl
    · rw [Machine.updateCyclic, Machine.updateKind, Machine.updateModule_of_not_has _ hm]
  · rw [Machine.requested_updateCyclic fun c => (hf c).requested, h.requested]
  · rw [Machine.hasAwait, Machine.map_cyclic?_updateCyclic (·.hasAwait) fun c => (hf c).hasAwait,
      ← Machine.hasAwait, h.hasAwait]
  · have hown := h.own x ((hhas x).1 hx)
    exact (Desk.bindsOwn_updateCyclic (Watched.desk s) m f x).2 hown
  · rw [Machine.field_updateCyclic (·.error) fun c => (hf c).error, h.errors]
  · obtain e | e := fields_updateCyclic_cases s m x <;> rw [e] at hy
    · exact h.parents x y hy
    · exact ((hf _).parents y hy).elim (h.parents x y) id

/-! ## The journal -/

def eventOf (b : Desk) : Entry → Option BodyEvent
  | .started m _ => some (.started m)
  | .ended m => if b.hasAwait m then some (.resumed m) else none
  | .resolved .. | .refused .. | .threw .. | .waited .. => none

/-- What an entry says is true of the linked files, and fits to what was noted before. -/
def Fair (b : Desk) (j : Journal) : Entry → Prop
  | .resolved m r n => Desk.target? b m r = some n
  | .started _ before => (∀ x, before.isCyclic x) ∧ ∀ x, before.requested x = b.requested x
  | .ended m => ∃ before, Entry.started m before ∈ j
  | .refused .. | .threw .. | .waited .. => True

/-- The desk knows the files that were loaded, and its events are those that the journal tells. -/
structure Chronicle (b : Desk) (w : Workspace × Journal) : Prop where
  tree : w.1.tree = b.host.tree
  current : w.1.current = b.host.current
  loaded : w.1.loaded = b.host.loaded
  events : w.1.events = w.2.filterMap (eventOf b)
  fair : ∀ j e, (j ++ [e]) <+: w.2 → Fair b j e

namespace Chronicle

theorem note (h : Chronicle b w) (e : Entry) (w' : Workspace) (htree : w'.tree = w.1.tree)
    (hcurrent : w'.current = w.1.current) (hloaded : w'.loaded = w.1.loaded)
    (hevents : w'.events = w.1.events ++ (eventOf b e).toList) (he : Fair b w.2 e) :
    Chronicle b (w', w.2 ++ [e]) where
  tree := htree.trans h.tree
  current := hcurrent.trans h.current
  loaded := hloaded.trans h.loaded
  events := by
    dsimp only
    rw [hevents, h.events, List.filterMap_append]
    cases ho : eventOf b e <;> simp [ho]
  fair j e' hp := by
    obtain hp | hp := List.prefix_concat_iff.1 hp
    · obtain ⟨rfl, he'⟩ := List.append_inj' hp rfl
      cases he'
      exact he
    · exact h.fair j e' hp

theorem fair_of_mem (h : Chronicle b w) {e : Entry} (he : e ∈ w.2) :
    ∃ j, (j ++ [e]) <+: w.2 ∧ Fair b j e := by
  obtain ⟨j, k, hj⟩ := List.append_of_mem he
  have hp : (j ++ [e]) <+: w.2 := ⟨k, by rw [hj, List.append_assoc, List.singleton_append]⟩
  exact ⟨j, hp, h.fair j e hp⟩

theorem target (h : Chronicle b w) (hn : Entry.resolved m request n ∈ w.2) :
    Desk.target? b m request = some n := (h.fair_of_mem hn).elim fun _ hj => hj.2

end Chronicle

/-! ## Promises -/

/-- What a reaction does: it tells the end of a body, or goes on with one that has started. -/
def Handles (b : Desk) (j : Journal) : Handler ModuleId → Prop
  | .bodyEnded _ => True
  | .resumeBody _ _ code =>
    b.Has code ∧ b.hasAwait code ∧ ∃ before, Entry.started code before ∈ j
  | .passOn | .callback _ | .imported _ | .joined .. => False

/-- No promise is rejected, and all reactions are about bodies. Those that go on with a body are
queued at once. -/
structure Pledges (b : Desk) (j : Journal) (s : Watched) : Prop where
  settled : ∀ p x, (s.promise p).settlement? = some x → x = .fulfilled .undefined
  handles : ∀ r reaction, s.reaction? r = some reaction →
    reaction.capability = none ∧ Handles b j reaction.handler
  jobs : ∀ job ∈ s.jobs, ∃ r, job = .react r (.fulfilled .undefined)
  held : ∀ p r, s.Holds p r → r.index < s.reactions.size ∧
    ∀ m c code, s.handler? r ≠ some (.resumeBody m c code)

theorem Handles.mono {handler : Handler ModuleId} (h : Handles b j handler)
    (hj : ∀ e ∈ j, e ∈ k) : Handles b k handler := by
  cases handler with
  | bodyEnded m => trivial
  | resumeBody m c code => exact ⟨h.1, h.2.1, h.2.2.imp fun _ => hj _⟩
  | passOn | callback | imported | joined => exact h

namespace Pledges

theorem change (h : Pledges b j s) (hpromises : s'.promises = s.promises)
    (hreactions : s'.reactions = s.reactions) (hjobs : s'.jobs = s.jobs) (hj : ∀ e ∈ j, e ∈ k) :
    Pledges b k s' := by
  have hpromise : ∀ p, s'.promise p = s.promise p := fun p => by
    rw [Machine.promise, hpromises, Machine.promise]
  have hreaction : ∀ r, s'.reaction? r = s.reaction? r := fun r => by
    rw [Machine.reaction?, hreactions, Machine.reaction?]
  refine ⟨fun p x hx => h.settled p x (by rwa [← hpromise]), fun r reaction hr => ?_,
    fun job hjob => h.jobs job (by rwa [← hjobs]), fun p r hr => ?_⟩
  · obtain ⟨hc, hh⟩ := h.handles r reaction (by rwa [← hreaction])
    exact ⟨hc, hh.mono hj⟩
  · rw [Machine.Holds, hpromise] at hr
    rw [hreactions, Machine.handler?, hreaction]
    exact h.held p r hr

theorem newPromise (h : Pledges b j s) (st : PromiseState) (hst : st.reactions = [])
    (hsettled : ∀ x, st.settlement? = some x → x = .fulfilled .undefined) :
    Pledges b j (s.newPromise st).2 := by
  refine ⟨fun p x hx => ?_, h.handles, h.jobs, fun p r hr => ?_⟩
  · rw [Machine.promise_newPromise] at hx
    split at hx
    · exact hsettled x hx
    · exact h.settled p x hx
  · rw [Machine.Holds, Machine.promise_newPromise] at hr
    split at hr
    · rw [hst] at hr
      cases hr
    · exact h.held p r hr

theorem ended (h : Pledges b j s) (he : s.Ended Prod.snd s' p (.fulfilled .undefined)) :
    Pledges b j s' := by
  refine ⟨fun q x hx => ?_, fun r reaction hr => h.handles r reaction ?_, fun job hjob => ?_,
    fun q r hr => ?_⟩
  · by_cases e : q = p
    · subst e
      have hmade : s'.Made q := Machine.made_of_resolved fun hu => by
        rw [← PromiseState.phase_snd, hu] at hx
        cases hx
      rw [Machine.Made, he.size] at hmade
      rw [← PromiseState.phase_snd, he.settled hmade] at hx
      exact (Option.some.inj hx).symm
    · rw [← PromiseState.phase_snd, he.other q e, PromiseState.phase_snd] at hx
      exact h.settled q x hx
  · rwa [he.reaction?] at hr
  · rw [he.jobs, List.mem_append] at hjob
    obtain hjob | hjob := hjob
    · exact h.jobs job hjob
    · obtain ⟨r, -, rfl⟩ := List.mem_map.1 hjob
      exact ⟨r, rfl⟩
  · obtain ⟨hr, -⟩ := (he.held q r).1 hr
    rw [he.reactions, he.handler?]
    exact h.held q r hr

/-- A reaction is attached. One that goes on with a body needs a promise that is settled. -/
theorem attached (h : Pledges b j s) {reaction : Reaction ModuleId}
    (ha : s.Attached Prod.snd s' p reaction) (hcapability : reaction.capability = none)
    (hhandles : Handles b j reaction.handler)
    (hp : (s.promise p).settlement? = none →
      ∀ m c code, reaction.handler ≠ .resumeBody m c code) : Pledges b j s' := by
  have hfresh : ∀ {r : ReactionId}, r.index < s.reactions.size → s'.reaction? r = s.reaction? r :=
    fun hr => by rw [ha.reaction, if_neg (Machine.ne_nextReaction hr)]
  have hold : ∀ {q r}, s.Holds q r → r.index < s'.reactions.size ∧
      ∀ m c code, s'.handler? r ≠ some (.resumeBody m c code) := fun {q r} hr => by
    obtain ⟨hlt, hne⟩ := h.held q r hr
    rw [ha.count, Machine.handler?, hfresh hlt]
    exact ⟨Nat.lt_succ_of_lt hlt, hne⟩
  refine ⟨fun q x hx => ?_, fun r reaction' hr => ?_, fun job hjob => ?_, fun q r hr => ?_⟩
  · rw [← PromiseState.phase_snd, ha.phase, PromiseState.phase_snd] at hx
    exact h.settled q x hx
  · rw [ha.reaction] at hr
    split at hr
    · cases hr
      exact ⟨hcapability, hhandles⟩
    · exact h.handles r reaction' hr
  · obtain ⟨-, hjobs, -⟩ | ⟨x, hx, hjobs, -⟩ := ha.placed
    · rw [hjobs] at hjob
      exact h.jobs job hjob
    · rw [hjobs, List.mem_append, List.mem_singleton] at hjob
      obtain hjob | rfl := hjob
      · exact h.jobs job hjob
      · exact ⟨_, by rw [h.settled p x hx]⟩
  · obtain ⟨hnone, -, hheld⟩ | ⟨x, -, -, hheld⟩ := ha.placed
    · obtain hr | ⟨-, -, rfl⟩ := (hheld q r).1 hr
      · exact hold hr
      · refine ⟨by rw [ha.count]; exact Nat.lt_succ_self _, fun m c code e => ?_⟩
        rw [Machine.handler?, ha.reaction, if_pos rfl] at e
        exact hp hnone m c code (Option.some.inj e)
    · exact hold ((hheld q r).1 hr)

end Pledges

/-! ## The course -/

structure Course (b : Desk) (s : Watched) : Prop where
  cast : Cast b s
  chronicle : Chronicle b s.host
  pledges : Pledges b s.host.2 s

def begun (s : Watched) : ℕ := CommandLine.startedCount s.host.1.events

/-- What a part of a dry run leaves. Two reactions more need the start of another body, and no
module becomes idle again. -/
structure Passes (b : Desk) (s s' : Watched) : Prop where
  course : Course b s'
  pace : s'.load + 2 * begun s ≤ s.load + 2 * begun s'
  awake : ∀ m, (s'.cyclic m).status.IsIdle → (s.cyclic m).status.IsIdle

theorem Passes.refl (h : Course b s) : Passes b s s := ⟨h, Nat.le_refl _, fun _ => id⟩

theorem Passes.trans (h : Passes b s s') (h' : Passes b s' s'') : Passes b s s'' where
  course := h'.course
  pace := by
    have := h.pace
    have := h'.pace
    omega
  awake m hm := h.awake m (h'.awake m hm)

namespace Course

theorem updateCyclic (h : Course b s) (m : ModuleId) {f : Cyclic → Cyclic}
    (hf : ∀ c, Tame s c (f c)) : Passes b s (s.updateCyclic m f) where
  course := ⟨h.cast.updateCyclic hf, h.chronicle, h.pledges.change rfl rfl rfl fun _ => id⟩
  pace := Nat.le_refl _
  awake x hx := by
    obtain e | e := fields_updateCyclic_cases s m x <;> rw [e] at hx
    · exact hx
    · exact (hf _).awake hx

theorem foldl_updateCyclic {f : Cyclic → Cyclic} (hf : ∀ (s : Watched) c, Tame s c (f c))
    (xs : List ModuleId) : ∀ {s}, Course b s →
      Passes b s (xs.foldl (fun s x => s.updateCyclic x f) s) := by
  induction xs with
  | nil => exact fun h => .refl h
  | cons x rest ih =>
    intro s h
    have hx := h.updateCyclic x (hf s)
    exact hx.trans (ih hx.course)

theorem aside (h : Course b s) (hmodules : s'.modules = s.modules) (hhost : s'.host = s.host)
    (hpledges : Pledges b s.host.2 s') : Course b s' :=
  ⟨h.cast.of_modules hmodules, hhost ▸ h.chronicle, hhost ▸ hpledges⟩

theorem awake_of_modules (hmodules : s'.modules = s.modules) (m : ModuleId)
    (hm : (s'.cyclic m).status.IsIdle) : (s.cyclic m).status.IsIdle := by
  have he : s'.cyclic m = s.cyclic m := by
    rw [Machine.cyclic, Machine.cyclic?, Machine.module, hmodules]
    rfl
  rwa [he] at hm

theorem newPromise (h : Course b s) (st : PromiseState) (hst : st.reactions = [])
    (hsettled : ∀ x, st.settlement? = some x → x = .fulfilled .undefined) :
    Passes b s (s.newPromise st).2 where
  course := h.aside rfl rfl (h.pledges.newPromise st hst hsettled)
  pace := by
    rw [Machine.load_newPromise hst]
    exact Nat.le_refl _
  awake _ := id

theorem resolve (h : Course b s) (depth : ℕ) (c : Capability) :
    Passes b s (s.resolve (watchedHost depth).track c .undefined) := by
  by_cases hspent : s.isSpent c
  · rw [Machine.resolve, if_pos hspent]
    exact .refl h
  · have he : s.Ended Prod.snd (s.resolve (watchedHost depth).track c .undefined) c.promise
      (.fulfilled .undefined) := Machine.resolve_ended s c
        (fun _ e => by cases e) hspent
    have hhost : (s.resolve (watchedHost depth).track c .undefined).host = s.host :=
      (Machine.aside_resolve s c .undefined).host_eq fun _ _ _ => rfl
    refine ⟨h.aside he.modules hhost (h.pledges.ended he), ?_, awake_of_modules he.modules⟩
    rw [Machine.load_resolve_undefined, begun, begun, hhost]

/-- A reaction is attached to a promise that is not rejected. -/
theorem attach (h : Course b s) (depth : ℕ) (p : PromiseId) (reaction : Reaction ModuleId)
    (hcapability : reaction.capability = none) (hhandles : Handles b s.host.2 reaction.handler)
    (hp : (s.promise p).settlement? = none →
      ∀ m c code, reaction.handler ≠ .resumeBody m c code) :
    Course b (s.attach (watchedHost depth).track p reaction) ∧
      (s.attach (watchedHost depth).track p reaction).load ≤ s.load + 1 ∧
      (s.attach (watchedHost depth).track p reaction).modules = s.modules ∧
      (s.attach (watchedHost depth).track p reaction).host = s.host := by
  have ha : s.Attached Prod.snd (s.attach (watchedHost depth).track p reaction) p reaction :=
    Machine.attached (fun _ _ _ => rfl) s p reaction
  have hhost : (s.attach (watchedHost depth).track p reaction).host = s.host :=
    (Machine.aside_attach s p reaction).host_eq fun _ _ _ => rfl
  refine ⟨h.aside ha.modules hhost (h.pledges.attached ha hcapability hhandles hp),
    Machine.load_attach_le (fun e handled hr => ?_) reaction, ha.modules, hhost⟩
  have hx := h.pledges.settled p (.rejected e) (by rw [hr]; rfl)
  cases hx

end Course

end FileSystem

end ModuleGraph

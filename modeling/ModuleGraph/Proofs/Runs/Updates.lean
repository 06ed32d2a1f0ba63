import ModuleGraph.Proofs.Runs.Coherent

/-! # Updates of a run

Evaluation changes the fields of modules and lets the journal grow. What these updates do to the
graph of the machine is stated here once, together with what they need to keep it coherent. -/

namespace ModuleGraph

open Relation

variable {σ κ : Type} {journal : σ → Journal} {owner : κ → ModuleId} {reserved : Set PromiseId}
variable {hosts : Set (Host σ κ)}

structure Cyclic.SamePlace (c c' : Cyclic) : Prop where
  status : c'.status = c.status
  visit : c'.visit = c.visit
  ancestor : c'.ancestor = c.ancestor

theorem ModuleKind.leaf?_updateCyclic (f : Cyclic → Cyclic) (k : ModuleKind) :
    (k.updateCyclic f).leaf? = k.leaf? := by
  cases k <;> rfl

namespace Machine

variable {s s' s'' : Machine σ κ} {o o' : Focus} {a : Agenda} {m x : ModuleId} {p : PromiseId}

theorem Prepared.beside {j : Journal} (h : s.Prepared j m) (hb : s.Beside journal s')
    (hp : ∀ p x, (s.promise p).settlement? = some x → (s'.promise p).settlement? = some x) :
    s'.Prepared j m := by
  have hmodule : ∀ m, s'.module m = s.module m := fun m => by rw [module, hb.modules, module]
  have hcyclic : ∀ m, s'.cyclic? m = s.cyclic? m := fun m => by
    rw [cyclic?_eq, hmodule, ← cyclic?_eq]
  have hrequests : ∀ x y, s.Requests j x y → s'.Requests j x y := fun x y hxy =>
    hxy.mono (by rw [requested, hcyclic, ← requested]) fun _ he => he
  intro r hr
  rw [requested, hcyclic, ← requested] at hr
  obtain ⟨n, hn, hleaf, hin⟩ := h r hr
  refine ⟨n, hn, fun hc => ?_, fun hc => ?_⟩
  · obtain ⟨p, v, hk, hv⟩ := hleaf (by rwa [isCyclic, hcyclic] at hc)
    exact ⟨p, v, by rw [hmodule, hk], hp p _ hv⟩
  · rw [isCyclic, hcyclic] at hc
    refine (hin hc).imp (fun hr => ?_) fun hr => ReflTransGen.mono hrequests _ _ hr
    obtain ⟨he, q, hq, hs, her⟩ := hr
    refine ⟨he, q, by rw [cycleRoot?, hcyclic, ← cycleRoot?, hq], ?_, ?_⟩
    · rw [cyclic, hcyclic, ← cyclic, hs]
    · rw [cyclic, hcyclic, ← cyclic, her]

theorem requested_eq (s : Machine σ κ) (m : ModuleId) : s.requested m = (s.cyclic m).requested := by
  rw [requested, cyclic]
  cases s.cyclic? m <;> rfl

theorem requests_graph (s : Machine σ κ) (a : Agenda) :
    (s.graph journal a).Requests = s.Requests (journal s.host) := by
  funext x y
  rw [Graph.Requests, Requests, requested_eq]
  rfl

/-- What the graph tells about a module that can run is what its body needs. -/
theorem prepared_of_provided (hs : (s.graph journal a).Sound) (hm : s.isCyclic m)
    (h : (s.graph journal a).Provided m) : s.Prepared (journal s.host) m := by
  intro r hr
  rw [requested_eq] at hr
  obtain ⟨n, hn, hd | hreach⟩ := h r hr
  · refine ⟨n, hn, fun hc => ?_, fun hc => .inl ?_⟩
    · obtain hl | ⟨q, hq, -⟩ := hd
      · exact hl
      · -- A module of a cycle is no leaf.
        have hq' : (s.cyclic n).root = some q := hq
        rw [cyclic_of_not_isCyclic hc] at hq'
        cases hq'
    · obtain hleaf | ⟨q, hq, hcomplete⟩ := hd
      · rw [not_isCyclic_of_leafDone hleaf] at hc
        cases hc
      · obtain ⟨hst, he⟩ := hs.complete_member hcomplete _ n rfl hq
        refine ⟨((hs.shaped n).complete hst he).2.2.2, q, ?_, hcomplete⟩
        obtain ⟨c, hc'⟩ := Option.isSome_iff_exists.1 hc
        rw [cycleRoot?, hc', Option.bind_some, ← cyclic_of_cyclic? hc']
        exact hq
  · rw [requests_graph] at hreach
    refine ⟨n, hn, fun hc => ?_, fun _ => .inr hreach⟩
    obtain rfl | ⟨y, hy, -⟩ := ReflTransGen.cases_head hreach
    · rw [hm] at hc
      cases hc
    · obtain ⟨r', hr', -⟩ := hy
      rw [requested_of_leaf hc] at hr'
      cases hr'

/-! ## Fields -/

structure Refields (s s' : Machine σ κ) : Prop where
  size : s'.modules.size = s.modules.size
  isCyclic : ∀ m, s'.isCyclic m = s.isCyclic m
  leaf : ∀ m p, (s'.module m).kind.leaf? = some (.evaluated p) ↔
    (s.module m).kind.leaf? = some (.evaluated p)
  capability : ∀ m, (s'.cyclic m).capability = (s.cyclic m).capability
  requested : ∀ m, (s'.cyclic m).requested = (s.cyclic m).requested
  promises : s'.promises = s.promises
  reactions : s'.reactions = s.reactions
  joins : s'.joins = s.joins
  imports : s'.imports = s.imports
  jobs : s'.jobs = s.jobs
  host : s'.host = s.host
  errors : s'.errors = s.errors

theorem leaf?_updateCyclic (s : Machine σ κ) (m x : ModuleId) (f : Cyclic → Cyclic) :
    ((s.updateCyclic m f).module x).kind.leaf? = (s.module x).kind.leaf? := by
  by_cases hm : s.Has m
  · rw [kind_updateCyclic f hm]
    split
    · exact ModuleKind.leaf?_updateCyclic f _
    · rfl
  · rw [updateCyclic, updateKind, updateModule_of_not_has _ hm]

theorem isCyclic_updateCyclic (s : Machine σ κ) (m x : ModuleId) (f : Cyclic → Cyclic) :
    (s.updateCyclic m f).isCyclic x = s.isCyclic x := by
  have h := map_cyclic?_updateCyclic (s := s) (m := m) (n := x) (fun _ => ()) (f := f) fun _ => rfl
  have h' := congrArg Option.isSome h
  rwa [Option.isSome_map, Option.isSome_map] at h'

theorem refields_updateCyclic (s : Machine σ κ) (m : ModuleId) {f : Cyclic → Cyclic}
    (hf : ∀ c, (f c).capability = c.capability ∧ (f c).requested = c.requested) :
    s.Refields (s.updateCyclic m f) :=
  ⟨by simp [updateCyclic, updateKind], fun x => isCyclic_updateCyclic s m x f,
    fun x p => by rw [leaf?_updateCyclic],
    fun x => field_updateCyclic (·.capability) fun c => (hf c).1,
    fun x => field_updateCyclic (·.requested) fun c => (hf c).2,
    rfl, rfl, rfl, rfl, rfl, rfl, rfl⟩

namespace Refields

theorem refl (s : Machine σ κ) : s.Refields s :=
  ⟨rfl, fun _ => rfl, fun _ _ => Iff.rfl, fun _ => rfl, fun _ => rfl, rfl, rfl, rfl, rfl, rfl, rfl,
    rfl⟩

theorem trans (h : s.Refields s') (h' : s'.Refields s'') : s.Refields s'' where
  size := h'.size.trans h.size
  isCyclic m := (h'.isCyclic m).trans (h.isCyclic m)
  leaf m p := (h'.leaf m p).trans (h.leaf m p)
  capability m := (h'.capability m).trans (h.capability m)
  requested m := (h'.requested m).trans (h.requested m)
  promises := h'.promises.trans h.promises
  reactions := h'.reactions.trans h.reactions
  joins := h'.joins.trans h.joins
  imports := h'.imports.trans h.imports
  jobs := h'.jobs.trans h.jobs
  host := h'.host.trans h.host
  errors := h'.errors.trans h.errors

theorem foldl (s : Machine σ κ) {f : Cyclic → Cyclic}
    (hf : ∀ c, (f c).capability = c.capability ∧ (f c).requested = c.requested)
    (xs : List ModuleId) : s.Refields (xs.foldl (fun s x => s.updateCyclic x f) s) := by
  induction xs generalizing s with
  | nil => exact refl s
  | cons x rest ih => exact (refields_updateCyclic s x hf).trans (ih _)

theorem promise_eq (h : s.Refields s') (p : PromiseId) : s'.promise p = s.promise p := by
  rw [promise, h.promises, promise]

theorem has_iff (h : s.Refields s') (x : ModuleId) : s'.Has x ↔ s.Has x := by
  rw [Has, h.size, Has]

theorem throws_eq (h : s.Refields s') : s'.Throws journal = s.Throws journal := by
  funext m e
  simp only [Throws, Threw, AwaitedAmiss, h.host, h.errors]

theorem graph_eq (h : s.Refields s') (journal : σ → Journal) (a : Agenda) : s'.graph journal a =
    { s.graph journal a with fields := s'.cyclic, nextTurn := s'.nextTurn } := by
  have hleaf : s'.LeafDone = s.LeafDone := funext fun m => by
    simp only [LeafDone, h.leaf, h.promise_eq]
  simp only [graph, h.host, h.size, hleaf, h.isCyclic, h.throws_eq]

theorem wired (h : s.Refields s') {w : Circuit} (hw : s.Wired owner w) : s'.Wired owner w := by
  refine hw.aside (fun p hp => by rwa [Made, h.promises]) (fun p _ _ => by rw [h.promise_eq])
    (fun p r => by rw [Holds, h.promise_eq, Holds]) h.reactions (by rw [h.joins])
    (fun r x => by rw [h.jobs]) fun p hp => .inl ?_
  simpa only [IsTarget, reaction?, join, import?, h.reactions, h.joins, h.imports, h.jobs] using hp

theorem answers_iff (h : s.Refields s') (p : PromiseId) : s'.Answers p ↔ s.Answers p := by
  simp only [Answers, h.capability]

/-- A finding stays true if roots and errors do, and if no module fails that has no root and of
which the finding says otherwise. -/
theorem shows (h : s.Refields s') {f : Finding}
    (hroot : ∀ m q, (s.cyclic m).root = some q → (s'.cyclic m).root = some q)
    (herror : ∀ m, (s'.cyclic m).error = (s.cyclic m).error ∨ (s.cyclic m).error = none ∧
      ((s'.cyclic m).root ≠ none ∨ ∀ e, f = .spared m e → (s'.cyclic m).error = some e))
    (hf : s.Shows journal f) : s'.Shows journal f := by
  cases f with
  | made m requested => exact ⟨(h.has_iff m).2 hf.1, (h.requested m).trans hf.2⟩
  | settled p x => exact (congrArg PromiseState.settlement? (h.promise_eq p)).trans hf
  | answered m c => exact (h.capability m).trans hf
  | rooted m q => exact hroot m q hf
  | failed m e =>
    obtain he | ⟨he, -⟩ := herror m
    · exact he.trans hf
    · cases he.symm.trans hf
  | kept m p => exact (h.leaf m p).2 hf
  | spared m e =>
    intro e' he'
    obtain he | ⟨-, hr | he⟩ := herror m
    · refine (hf e' (he ▸ he')).imp (fun hr => ?_) id
      obtain ⟨q, hq⟩ := Option.ne_none_iff_exists'.1 hr
      rw [hroot m q hq]
      exact Option.some_ne_none q
    · exact .inl hr
    · exact .inr (Option.some.inj (he'.symm.trans (he e rfl)))
  | noted entry =>
    change entry ∈ journal s'.host
    rwa [h.host]

end Refields

/-- The fields of all modules when one that takes part in cycles is updated. -/
theorem fields_updateCyclic (hm : s.Has m) (hc : s.isCyclic m) (f : Cyclic → Cyclic) :
    (s.updateCyclic m f).cyclic = Function.update s.cyclic m (f (s.cyclic m)) := by
  funext x
  by_cases e : x = m
  · subst e
    obtain ⟨c, hc⟩ := Option.isSome_iff_exists.1 hc
    rw [Function.update_self, cyclic_updateCyclic_self f hm hc, cyclic_of_cyclic? hc]
  · rw [Function.update_of_ne e, cyclic_updateCyclic_of_ne f e]

/-- The fields of all modules when several of them are updated. -/
theorem fields_foldl_updateCyclic (f : Cyclic → Cyclic) {xs : List ModuleId} (hxs : xs.Nodup)
    (hm : ∀ x ∈ xs, s.Has x ∧ s.isCyclic x) (x : ModuleId) :
    (xs.foldl (fun s x => s.updateCyclic x f) s).cyclic x =
      if x ∈ xs then f (s.cyclic x) else s.cyclic x := by
  rw [cyclic, cyclic?_foldl_updateCyclic f hxs fun x hx => (hm x hx).1]
  split
  · rename_i hx
    obtain ⟨c, hc⟩ := Option.isSome_iff_exists.1 (hm x hx).2
    rw [cyclic, hc]
    rfl
  · rfl

theorem nextTurn_foldl_updateCyclic (s : Machine σ κ) (f : Cyclic → Cyclic) (xs : List ModuleId) :
    (xs.foldl (fun s x => s.updateCyclic x f) s).nextTurn = s.nextTurn := by
  induction xs generalizing s with
  | nil => rfl
  | cons x rest ih => exact ih _

/-- A module that evaluation has touched takes part in cycles. -/
theorem isCyclic_of_awake (h : ¬(s.cyclic m).status.IsIdle) : s.isCyclic m := by
  by_contra hn
  rw [cyclic_of_not_isCyclic (Bool.eq_false_of_not_eq_true hn)] at h
  exact h trivial

theorem has_of_awake (h : ¬(s.cyclic m).status.IsIdle) : s.Has m := by
  by_contra hn
  exact h (untouched_of_isNew (isNew_of_not_has hn)).idle

theorem isLinked_of_awake (h : ¬(s.cyclic m).status.IsIdle) : (s.status m).IsLinked := by
  obtain ⟨c, hc⟩ := Option.isSome_iff_exists.1 (isCyclic_of_awake h)
  rw [cyclic_of_cyclic? hc] at h
  rw [status_of_cyclic? hc]
  obtain e | e | e := Status.cases_awake h <;> rw [e] <;> trivial

/-! ## Linked modules -/

theorem isRunnable_updateCyclic (s : Machine σ κ) (m x : ModuleId) (f : Cyclic → Cyclic) :
    ((s.updateCyclic m f).module x).kind.IsRunnable ↔ (s.module x).kind.IsRunnable := by
  by_cases hm : s.Has m
  · rw [kind_updateCyclic f hm]
    split
    · cases (s.module x).kind <;> exact Iff.rfl
    · exact Iff.rfl
  · rw [updateCyclic, updateKind, updateModule_of_not_has _ hm]

theorem isLinked_updateCyclic {f : Cyclic → Cyclic}
    (hs : ∀ c, s.cyclic? m = some c → ((f c).status.IsLinked ↔ c.status.IsLinked)) (x : ModuleId) :
    ((s.updateCyclic m f).status x).IsLinked ↔ (s.status x).IsLinked := by
  by_cases hm : s.Has m
  · by_cases e : x = m
    · subst e
      cases hc : s.cyclic? x with
      | none => rw [updateCyclic_of_leaf f hc]
      | some c =>
        rw [status_of_cyclic? hc, status_of_cyclic? (c := f c), hs c hc]
        rw [cyclic?_updateCyclic f hm, if_pos rfl, hc]
        rfl
    · rw [status, kind_updateCyclic f hm, if_neg e, ← status]
  · rw [updateCyclic, updateKind, updateModule_of_not_has _ hm]

/-- Evaluation changes the fields of one module. Only linked ones go to another place in the
search. -/
theorem LinkClosed.updateCyclic (h : s.LinkClosed journal) (m : ModuleId) {f : Cyclic → Cyclic}
    (hf : ∀ c, (f c).requested = c.requested)
    (hs : ∀ c, s.cyclic? m = some c →
      c.status.IsLinked ∧ (f c).status.IsLinked ∨ c.SamePlace (f c)) :
    (s.updateCyclic m f).LinkClosed journal := by
  refine h.mono (isLinked_updateCyclic fun c hc => ?_) (fun x hx hb => ?_)
    (fun _ _ => requested_updateCyclic hf) (fun x _ => (isRunnable_updateCyclic s m x f).2)
    fun _ he => he
  · obtain ⟨hl, hl'⟩ | hp := hs c hc
    · exact iff_of_true hl' hl
    · rw [hp.status]
  · by_cases e : x = m
    · subst e
      by_cases hm : s.Has x
      · cases hc : s.cyclic? x with
        | none => rwa [updateCyclic_of_leaf f hc]
        | some c =>
          obtain ⟨hl, -⟩ | hp := hs c hc
          · rw [status_of_cyclic? hc] at hx
            exact (hx hl).elim
          · rw [cyclic_of_cyclic? hc] at hb
            rw [cyclic_updateCyclic_self f hm hc]
            exact ⟨hp.status.trans hb.1, hp.visit.trans hb.2.1, hp.ancestor.trans hb.2.2⟩
      · rwa [Machine.updateCyclic, updateKind, updateModule_of_not_has _ hm]
    · rwa [cyclic_updateCyclic_of_ne _ e]

/-- Evaluation changes the fields of several modules that it has touched. -/
theorem LinkClosed.foldl {f : Cyclic → Cyclic} (hf : ∀ c, (f c).requested = c.requested)
    (hs : ∀ c : Cyclic, c.status.IsLinked → (f c).status.IsLinked) (xs : List ModuleId)
    (h : s.LinkClosed journal) (hxs : ∀ x ∈ xs, (s.status x).IsLinked) :
    (xs.foldl (fun s x => s.updateCyclic x f) s).LinkClosed journal := by
  induction xs generalizing s with
  | nil => exact h
  | cons x rest ih =>
    have hx : ∀ c, s.cyclic? x = some c → c.status.IsLinked ∧ (f c).status.IsLinked := by
      intro c hc
      have hx := hxs x (List.mem_cons_self ..)
      rw [status_of_cyclic? hc] at hx
      exact ⟨hx, hs c hx⟩
    refine ih (h.updateCyclic x hf fun c hc => .inl (hx c hc)) fun y hy => ?_
    refine (isLinked_updateCyclic (fun c hc => ?_) y).2 (hxs y (List.mem_cons_of_mem _ hy))
    exact iff_of_true (hx c hc).2 (hx c hc).1

/-! ## Coherence -/

theorem Coherent.refields (h : s.Coherent journal owner reserved o) (hr : s.Refields s')
    (hbegun : ∀ m, s.MayTell o.excused m → s'.MayTell o'.excused m)
    (hdue : ∀ m, s'.Due o'.excused m → s.Due o.excused m) (hbusy : o'.busy = o.busy)
    (hspare : ∀ p, o'.spare p → o.spare p) (hleaf : o'.leaf = o.leaf)
    (hlinked : ¬o'.linking → (journal s.host).Stable → s'.LinkClosed journal)
    (hknown : ∀ f, o'.known f → s'.Shows journal f)
    (hown : ∀ m c, (s.cyclic m).capability = some c →
      (s'.cyclic m).root = none ∨ (s'.cyclic m).root = some m)
    (hunasked : ∀ m, (s'.cyclic m).status.IsIdle ∨ (s'.cyclic m).status = .evaluating →
      (s.cyclic m).capability = none ∨ o'.IsLate m)
    (hlate : ∀ m c, (m, c) ∈ o'.late → (s.cyclic m).capability = some c)
    (htells : ∀ m c, (s.cyclic m).capability = some c → c.promise ∈ reserved →
      s'.Tells o' m c.promise) :
    s'.Coherent journal owner reserved o' := by
  have hmade : ∀ p, s.Made p → s'.Made p := fun p hp => by rwa [Made, hr.promises]
  refine ⟨?_, fun m p hm => ?_, fun m hm => ?_, fun hl hst => ?_, fun m c hm => ?_,
    fun m n c d hm hn => ?_, fun m c hm => ?_, fun m hm => ?_, fun m c hm => ?_, hknown,
    fun m c hm hres => ?_, ?_, ?_⟩
  · refine (hr.wired h.wired).weaken (fun _ => id) (fun p _ hp => (hr.answers_iff p).1 hp)
      (fun m hm => by change (journal s'.host).starts m ≠ 0; rw [hr.host]; exact hm)
      (fun m x hm => ?_) hbegun hdue hbusy fun p hp => .inr (hspare p hp)
    cases x with
    | fulfilled v =>
      change _ ∈ journal s'.host
      rw [hr.host]
      exact hm
    | rejected e =>
      change s'.Throws journal m e
      rw [hr.throws_eq]
      exact hm
  · rw [hr.leaf] at hm
    obtain ⟨x, hx, he⟩ := h.leaves m p hm
    exact ⟨x, by rw [hr.promise_eq, hx], by rwa [hr.throws_eq]⟩
  · rw [hr.host] at hm
    have hv := h.visited m hm
    refine ⟨(hr.has_iff m).2 hv.has, fun hc => ?_⟩
    rw [hr.isCyclic] at hc
    simpa only [hr.host, hr.leaf, hleaf] using hv.leaf hc
  · rw [hr.host] at hst
    exact hlinked hl hst
  · rw [hr.capability] at hm
    exact ⟨(h.capable m c hm).1, hmade _ (h.capable m c hm).2⟩
  · rw [hr.capability] at hm hn
    exact h.distinct m n c d hm hn
  · rw [hr.capability] at hm
    exact hown m c hm
  · rw [hr.capability]
    exact hunasked m hm
  · rw [hr.capability]
    exact hlate m c hm
  · rw [hr.capability] at hm
    exact htells m c hm hres
  · rw [hr.host]
    exact h.noted
  · rw [hr.host]
    exact h.logged

structure SameStage (s s' : Machine σ κ) (m : ModuleId) : Prop where
  status : (s'.cyclic m).status = (s.cyclic m).status
  error : (s'.cyclic m).error = (s.cyclic m).error
  root : (s'.cyclic m).root = (s.cyclic m).root

/-- A change of fields that nobody is told about: no promise answers for the modules that are at
another stage, or one that is answered for later. -/
theorem Coherent.untold (h : s.Coherent journal owner reserved o) (hr : s.Refields s')
    {excused : List ModuleId} (hbegun : ∀ m, s.MayTell o.excused m → s'.MayTell excused m)
    (hdue : ∀ m, s'.Due excused m → s.Due o.excused m)
    (hlinked : (journal s.host).Stable → s.LinkClosed journal → s'.LinkClosed journal)
    (hstage : ∀ m, s.SameStage s' m ∨ (s.cyclic m).root = none ∧
      (s'.cyclic m).error = (s.cyclic m).error ∧ ((s.cyclic m).capability = none ∨
        o.IsLate m ∧ ((s'.cyclic m).root = none ∨ (s'.cyclic m).root = some m))) :
    s'.Coherent journal owner reserved { o with excused } := by
  have hroot : ∀ m q, (s.cyclic m).root = some q → (s'.cyclic m).root = some q := fun m q hq => by
    obtain hs | ⟨hn, -⟩ := hstage m
    · rw [hs.root, hq]
    · rw [hn] at hq
      cases hq
  refine h.refields hr hbegun hdue rfl (fun _ hp => hp) rfl
    (fun hl hst => hlinked hst (h.linked hl hst))
    (fun f hf => hr.shows hroot (fun m => .inl ?_) (h.known f hf)) (fun m c hc => ?_)
    (fun m hm => ?_) h.late fun m c hc hres => ?_
  · exact (hstage m).elim (·.error) fun hs => hs.2.1
  · obtain hs | ⟨-, -, hn | ⟨-, hroot⟩⟩ := hstage m
    · rw [hs.root]
      exact h.own m c hc
    · rw [hn] at hc
      cases hc
    · exact hroot
  · obtain hs | ⟨-, -, hn | ⟨hl, -⟩⟩ := hstage m
    · rw [hs.status] at hm
      exact h.unasked m hm
    · exact .inl hn
    · exact .inr hl
  · have ht := h.tells m c hc hres
    obtain hs | ⟨-, -, hn | ⟨hl, -⟩⟩ := hstage m
    · refine ⟨fun hw => ?_, fun hl he her => ?_, fun hl he e her => ?_⟩
      · rw [hs.status] at hw
        rw [Undecided, hr.promise_eq]
        exact ht.waiting hw
      · rw [hs.status] at he
        rw [hs.error] at her
        rw [hr.promise_eq]
        exact ht.succeeded hl he her
      · rw [hs.status] at he
        rw [hs.error] at her
        rw [hr.promise_eq]
        exact ht.failed hl he e her
    · rw [hn] at hc
      cases hc
    · refine ⟨fun _ => ?_, fun hn => (hn hl).elim, fun hn => (hn hl).elim⟩
      rw [Undecided, hr.promise_eq]
      exact ht.waiting (.inl hl)

/-! ## The journal -/

/-- The journal grows, but not by starts of modules that take part in cycles. -/
theorem calm_setHost (s : Machine σ κ) {host : σ} {k : Journal}
    (hj : journal host = journal s.host ++ k)
    (hk : ∀ m, s.isCyclic m → k.starts m = 0) (hs : (s.graph journal a).Sound) :
    (s.graph journal a).Calm ((s.setHost host).graph journal a) := by
  have hstarts : ∀ m, s.isCyclic m → (journal host).starts m = (journal s.host).starts m :=
    fun m hm => by rw [hj, Journal.starts_append, hk m hm, Nat.add_zero]
  exact
    { noted := fun e he => by
        change e ∈ journal host
        rw [hj]
        exact List.mem_append_left _ he
      leaf := fun _ hl => hl
      threw := fun m e hm =>
        show (s.setHost host).Throws journal m e from Throws.mono hm ⟨k, hj⟩ (.refl s)
      requested := fun _ _ hr => hr
      idle := fun x hx => ⟨hx, ((hs.shaped x).idle hx).1, fun hc =>
        (hstarts x hc).trans (((hs.shaped x).idle hx).2 hc)⟩
      awake := fun x hx => ⟨⟨_, _, rfl⟩, hstarts x (isCyclic_of_awake hx)⟩
      size := Nat.le_refl _
      nextTurn := rfl
      stack := rfl
      ready := rfl
      released := rfl
      debt := rfl
      doom := rfl
      path := rfl
      visits := rfl
      ancestor := fun _ _ => rfl }

theorem starts_of_append {j j' k : Journal} (hj : j' = j ++ k) (h : j'.starts m = 0) :
    j.starts m = 0 := by
  rw [hj, Journal.starts_append] at h
  omega

theorem Coherent.setHost (h : s.Coherent journal owner reserved o) {host : σ} {k : Journal}
    (hj : journal host = journal s.host ++ k)
    (hstarts : ∀ m, k.starts m ≠ 0 → s.Has m ∧ (s.isCyclic m = false →
      k.starts m = 1 ∧ (journal s.host).starts m = 0 ∧ o.leaf = some m))
    (hnoted : ∀ m, Entry.ended m ∈ k → (journal host).starts m ≠ 0)
    (hlogged : (journal host).Logged) : (s.setHost host).Coherent journal owner reserved o := by
  have hthrows : ∀ {m e}, s.Throws journal m e → (s.setHost host).Throws journal m e :=
    fun hm => hm.mono ⟨k, hj⟩ (.refl s)
  have hmem : ∀ e ∈ journal s.host, e ∈ journal host := fun e he => by
    rw [hj]
    exact List.mem_append_left _ he
  refine ⟨?_, fun m p hm => ?_, fun m hm => ?_, fun hl hst => ?_, h.capable, h.distinct, h.own,
    h.unasked, h.late, fun f hf => ?_,
    fun m c hm hres => ⟨(h.tells m c hm hres).waiting, (h.tells m c hm hres).succeeded,
      (h.tells m c hm hres).failed⟩, fun m hm => ?_, hlogged⟩
  · have hw : (s.setHost host).Wired owner (s.circuit journal reserved o) :=
      h.wired.aside (fun _ hp => hp) (fun _ _ _ => rfl) (fun _ _ => Iff.rfl) rfl (Nat.le_refl _)
        (fun _ _ => Iff.rfl) fun _ hp => .inl hp
    refine hw.weaken (fun _ => id) (fun _ _ hp => hp) (fun m hm => ?_) (fun m x hm => ?_)
      (fun _ hm => ⟨hm.begun, hm.failed, hm.owed⟩) (fun _ hm => hm) rfl fun _ hp => .inr hp
    · exact fun e => hm (starts_of_append hj e)
    · cases x with
      | fulfilled v => exact hmem _ hm
      | rejected e => exact hthrows hm
  · obtain ⟨x, hx, he⟩ := h.leaves m p hm
    exact ⟨x, hx, fun e hxe => hthrows (he e hxe)⟩
  · have hsum : (journal host).starts m = (journal s.host).starts m + k.starts m := by
      rw [hj, Journal.starts_append]
    by_cases hk : k.starts m = 0
    · have hm' : (journal s.host).starts m ≠ 0 := fun e => hm (by
        change (journal host).starts m = 0
        omega)
      have hv := h.visited m hm'
      refine ⟨hv.has, fun hc => ⟨?_, (hv.leaf hc).2⟩⟩
      change (journal host).starts m ≤ 1
      have := (hv.leaf hc).1
      omega
    · obtain ⟨hhas, hleaf⟩ := hstarts m hk
      refine ⟨hhas, fun hc => ?_⟩
      obtain ⟨hk1, h0, hl⟩ := hleaf hc
      refine ⟨?_, .inl hl⟩
      change (journal host).starts m ≤ 1
      omega
  · have hst' : (journal host).Stable := hst
    rw [hj] at hst'
    exact (h.linked hl hst'.of_prefix).mono (fun _ => Iff.rfl) (fun _ _ hb => hb) (fun _ _ => rfl)
      (fun _ _ hr => hr) hmem
  · have hf' := h.known f hf
    cases f with
    | noted entry => exact hmem entry hf'
    | made | settled | answered | rooted | failed | kept | spared => exact hf'
  · have hm' : Entry.ended m ∈ journal host := hm
    change (journal host).starts m ≠ 0
    rw [hj] at hm'
    obtain hm' | hm' := List.mem_append.1 hm'
    · exact fun e => h.noted m hm' (starts_of_append hj e)
    · exact hnoted m hm'

end Machine

end ModuleGraph

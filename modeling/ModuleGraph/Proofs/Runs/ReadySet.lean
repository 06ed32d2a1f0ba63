import ModuleGraph.Proofs.Runs.Collecting
import ModuleGraph.Proofs.Runs.Rehearsal
import ModuleGraph.Proofs.Synchronous.Bodies

/-! # What is ready when a body has ended

When the body of an asynchronous module has ended well, the modules that are collected are the
least set that is closed under this rule: a module that waits is ready if each thing that it still
waits for is the module that has ended or a ready module without top-level await. Every module that
waits loses as many of the things that it waits for, and nothing else changes. Then the modules of
the set get their turns, in strictly rising order. -/

namespace ModuleGraph

variable {σ κ : Type} {journal : σ → Journal} {owner : κ → ModuleId} {reserved : Set PromiseId}
variable {hosts : Set (Host σ κ)} {host : Host σ κ}

theorem Journal.started_closing (m : ModuleId) (i : ErrorId) (r : Except Value (Execution κ)) :
    (Journal.closing m i r).started = [] := by
  rcases r with e | ⟨⟩ | ⟨p, code⟩ <;> rfl

namespace Machine

variable {s s' : Machine σ κ} {o : Focus} {d m x : ModuleId}
variable {ready released debt doom : List ModuleId}

/-! ## What is ready -/

/-- The module `m` waits for `x`, which is `d` or has not ended yet. -/
def Outstanding (s : Machine σ κ) (d x m : ModuleId) : Prop :=
  m ∈ (s.cyclic x).parents ∧ (x = d ∨ (s.cyclic x).status = .evaluatingAsync)

/-- A module that waits, but only for `d` and for modules of `F` without top-level await. -/
def Freed (s : Machine σ κ) (d : ModuleId) (F : ModuleId → Prop) (m : ModuleId) : Prop :=
  s.StillWaits m ∧ ∀ x, s.Outstanding d x m → x = d ∨ F x ∧ (s.cyclic x).hasAwait = false

/-- The list holds the least set of modules that is closed: whatever waits only for `d` and for
modules of the set without top-level await belongs to the set. -/
structure ReadySet (s : Machine σ κ) (d : ModuleId) (E : List ModuleId) : Prop where
  nodup : E.Nodup
  mem_iff : ∀ m, m ∈ E ↔ s.Freed d (· ∈ E) m
  least : ∀ F : ModuleId → Prop, (∀ m, s.Freed d F m → F m) → ∀ m ∈ E, F m

def settledBy (s : Machine σ κ) (d : ModuleId) (E : List ModuleId) : List ModuleId :=
  d :: E.filter fun x => !(s.cyclic x).hasAwait

/-- Each module that waits has lost one thing to wait for with every wait for `d` or for a module of
`E` without top-level await. Nothing else has changed. -/
structure CountsDown (s : Machine σ κ) (d : ModuleId) (E : List ModuleId) (s' : Machine σ κ) :
    Prop where
  lowered : ∀ m, s.StillWaits m → ∃ k,
    (s.cyclic m).pending = some (k + waitEdges s.cyclic (s.settledBy d E) m) ∧
      s'.module m = (s.module m).withPending (some k)
  kept : ∀ m, ¬s.StillWaits m → s'.module m = s.module m
  size : s'.modules.size = s.modules.size
  beside : { s' with modules := s.modules } = s

def HasEarlierTurn (s : Machine σ κ) (x y : ModuleId) : Prop :=
  ∃ j k, (s.cyclic x).order = .turn j ∧ (s.cyclic y).order = .turn k ∧ j < k

/-! ## What a module still waits for -/

/-- At rest, the modules that owe their ends are those that wait and are not as good as done. -/
theorem Working.owes_iff (h : s.Working journal owner reserved o ready released debt doom) :
    (s.graph journal (.run ready released debt doom)).owes x ↔
      (s.cyclic x).status = .evaluatingAsync ∧ x ∉ released := by
  set g := s.graph journal (.run ready released debt doom) with hg
  have howes : g.owes x ↔ ((g.fields x).order.isTurn ∧ (g.fields x).error = none) ∧
      x ∉ released := by
    simp only [Graph.owes, Bool.and_eq_true, Option.isNone_iff_eq_none, Bool.not_eq_true',
      List.contains_eq_mem, decide_eq_false_iff_not]
    rfl
  rw [howes]
  refine and_congr_left fun _ => ⟨?_, fun hs => ?_⟩
  · rintro ⟨ho, he⟩
    refine (h.awake (Graph.not_idle_of_turn h.sound ho)).resolve_right fun hs => ?_
    exact ((h.sound.shaped x).complete hs he).2.1 ho
  · exact ⟨((h.sound.shaped x).waiting hs).2.2, ((h.sound.shaped x).waiting hs).1⟩

/-- A module that waits counts what it still waits for. -/
theorem Working.pending_eq (h : s.Working journal owner reserved o ready released debt [])
    (hs : (s.cyclic m).status = .evaluatingAsync) (hroot : ¬s.rootFailed m) :
    (s.cyclic m).pending =
      some ((s.graph journal (.run ready released debt [])).waits m + debt.count m) := by
  obtain ⟨k, hk, hle, hge⟩ := h.sound.balanced m (.inr hs) List.not_mem_nil
  have hge := hge fun hf => hroot (rootFailed_iff.2 hf)
  exact hk.trans (congrArg some (Nat.le_antisymm hge hle))

structure Gathered (journal : σ → Journal) (owner : κ → ModuleId) (reserved : Set PromiseId)
    (o : Focus) (d : ModuleId) (E released : List ModuleId) (s s' : Machine σ κ) : Prop where
  done : (s.cyclic d).status = .evaluated
  before : s.Gathering journal owner reserved o [] [] (s.cyclic d).parents
  collected : s.Collected [] E s'
  after : s'.Gathering journal owner reserved o E released []

namespace Gathered

variable {E : List ModuleId} (h : Gathered journal owner reserved o d E released s s')
include h

theorem stillWaits (hm : m ∈ E) : s.StillWaits m :=
  (h.collected.new m hm).resolve_left List.not_mem_nil

theorem status (x : ModuleId) : (s'.cyclic x).status = (s.cyclic x).status :=
  h.collected.field (·.status) (fun _ _ => rfl) x

theorem parents (x : ModuleId) : (s'.cyclic x).parents = (s.cyclic x).parents :=
  h.collected.field (·.parents) (fun _ _ => rfl) x

theorem mem_released (x : ModuleId) : x ∈ released ↔ x ∈ E ∧ (s.cyclic x).hasAwait = false := by
  rw [h.after.mem_released, h.collected.field (·.hasAwait) fun _ _ => rfl]

theorem not_rootFailed (hm : s.StillWaits m) : ¬s'.rootFailed m := by
  rw [h.collected.rootFailed]
  exact hm.root

theorem pending_after (hm : s.StillWaits m) : (s'.cyclic m).pending =
    some ((s'.graph journal (.run E released [] [])).waits m) :=
  h.after.pending_eq ((h.status m).trans hm.status) (h.not_rootFailed hm)

/-- Whoever still owes its end afterwards has done so before, and is not as good as done. -/
theorem owes_after : (s'.graph journal (.run E released [] [])).owes x ↔
    (s.cyclic x).status = .evaluatingAsync ∧ ¬(x ∈ E ∧ (s.cyclic x).hasAwait = false) := by
  rw [h.after.owes_iff, h.status, h.mem_released]

/-- A module waits for nothing more if it is collected, and the other way round. -/
theorem mem_iff : m ∈ E ↔ s.Freed d (· ∈ E) m := by
  constructor
  · intro hm
    have hwaits := h.stillWaits hm
    refine ⟨hwaits, fun x ⟨hx, hxd⟩ => or_iff_not_imp_left.2 fun hne => ?_⟩
    -- A module that is ready waits for nothing that is not as good as done.
    have hzero := (h.after.sound.ready m hm (h.after.error_eq_none (h.not_rootFailed hwaits))).2.1
    have hpending := h.pending_after hwaits
    rw [show (s'.cyclic m).pending = some 0 from hzero] at hpending
    have hwaits0 := Option.some.inj hpending
    by_contra hn
    have howes := h.owes_after.2 ⟨hxd.resolve_left hne, hn⟩
    have hxi : ¬(s'.cyclic x).status.IsIdle := by
      rw [h.status, hxd.resolve_left hne]
      exact id
    have hpos := Graph.waits_pos ((h.after.sound.shaped x).sized hxi) howes
      (show m ∈ (s'.cyclic x).parents by rwa [h.parents])
    omega
  · rintro ⟨hwaits, hout⟩
    have hwaits0 : (s'.graph journal (.run E released [] [])).waits m = 0 := by
      by_contra hne
      obtain ⟨x, howes, hx⟩ := Graph.weight_pos_of_waits (Nat.pos_of_ne_zero hne)
      obtain ⟨hs, hn⟩ := h.owes_after.1 howes
      rw [show ((s'.graph journal _).fields x).parents = _ from h.parents x] at hx
      obtain rfl | hx := hout x ⟨hx, .inr hs⟩
      · rw [h.done] at hs
        cases hs
      · exact hn hx
    have hpending := h.pending_after hwaits
    rw [hwaits0] at hpending
    refine (h.collected.zero m hpending).resolve_left fun h0 => ?_
    obtain ⟨n, hn⟩ := hwaits.pending
    rw [h0] at hn
    cases hn

/-- What a module waits for has an earlier turn, so that the rule reaches the modules of the list
one after the other. -/
theorem least {F : ModuleId → Prop} (hF : ∀ m, s.Freed d F m → F m) :
    ∀ k m, (s.cyclic m).order = .turn k → m ∈ E → F m := by
  intro k
  induction k using Nat.strong_induction_on with
  | _ k ih =>
    intro m hk hm
    obtain ⟨hwaits, hout⟩ := h.mem_iff.1 hm
    refine hF m ⟨hwaits, fun x hx => (hout x hx).imp id fun ⟨hxE, ha⟩ => ⟨?_, ha⟩⟩
    have hxs := (h.stillWaits hxE).status
    obtain ⟨j, hj⟩ := AsyncOrder.exists_turn ((h.before.sound.shaped x).waiting hxs).2.2
    exact ih j ((h.before.sound.awaits x m hx.1).turn j k hj hk) x hj hxE

theorem readySet : s.ReadySet d E where
  nodup := h.after.nodup
  mem_iff _ := h.mem_iff
  least F hF m hm := by
    obtain ⟨k, hk⟩ := AsyncOrder.exists_turn
      ((h.before.sound.shaped m).waiting (h.stillWaits hm).status).2.2
    exact h.least hF k m hk hm

/-! ## How much a module has lost -/

/-- What a module has waited for is what it still waits for, and the modules that are as good as
done. -/
theorem waits_eq : (s.graph journal (.run [] [] (s.cyclic d).parents [])).waits m =
    (s'.graph journal (.run E released [] [])).waits m +
      waitEdges s.cyclic (E.filter fun x => !(s.cyclic x).hasAwait) m := by
  set g := s.graph journal (.run [] [] (s.cyclic d).parents []) with hg
  set xs := E.filter fun x => !(s.cyclic x).hasAwait with hxs
  have hmem : ∀ x, x ∈ xs ↔ x ∈ E ∧ (s.cyclic x).hasAwait = false := fun x => by
    rw [hxs, List.mem_filter, Bool.not_eq_true']
  rw [g.waits_released (h.after.nodup.filter _) fun x hx => ?_]
  · congr 1
    refine (Graph.waits_of_weight h.collected.size fun x => ?_).symm
    · refine Graph.weight_congr (Graph.owes_congr ?_ ?_ ?_) (h.parents x)
      · exact h.collected.field (·.order) (fun _ _ => rfl) x
      · exact h.collected.field (·.error) (fun _ _ => rfl) x
      · change x ∈ released ↔ x ∈ xs ++ []
        rw [List.append_nil, hmem, h.mem_released]
  · have hwaits := (h.stillWaits ((hmem x).1 hx).1).status
    exact ⟨has_of_awake (Status.awake_of_evaluatingAsync hwaits),
      h.before.owes_iff.2 ⟨hwaits, List.not_mem_nil⟩⟩

theorem countsDown : s.CountsDown d E s' where
  lowered m hm := by
    refine ⟨(s'.graph journal (.run E released [] [])).waits m, ?_, ?_⟩
    · rw [h.before.pending_eq hm.status hm.root, h.waits_eq, settledBy, waitEdges_cons,
        Nat.add_assoc, Nat.add_comm (waitEdges _ _ _)]
    · rw [← module_withPending (h.pending_after hm)]
      obtain hx | ⟨-, k, hx⟩ := h.collected.module m
      · rw [hx]
      · rw [hx, Module.withPending_withPending]
  size := h.collected.size
  kept m hm := (h.collected.module m).resolve_right fun hx => hm hx.1
  beside := h.collected.beside

/-! ## Turns -/

/-- The modules that are ready are put in an order in which each has a later turn than those before
it. -/
theorem sorted : (s'.sortByTurn E).Pairwise s'.HasEarlierTurn := by
  have hperm : (s'.sortByTurn E).Perm E := List.mergeSort_perm E _
  have hne : (s'.sortByTurn E).Pairwise (· ≠ ·) := hperm.nodup_iff.2 h.after.nodup
  have hturn : ∀ x ∈ s'.sortByTurn E, ∃ k, (s'.cyclic x).order = .turn k := fun x hx => by
    have hs := (h.status x).trans (h.stillWaits (hperm.mem_iff.1 hx)).status
    exact AsyncOrder.exists_turn ((h.after.sound.shaped x).waiting hs).2.2
  refine ((s'.sorted_sortByTurn E).and hne).imp_of_mem fun {x y} hx hy ⟨hle, hne⟩ => ?_
  obtain ⟨j, hj⟩ := hturn x hx
  obtain ⟨k, hk⟩ := hturn y hy
  refine ⟨j, k, hj, hk, lt_of_le_of_ne (hle j k hj hk) fun e => hne ?_⟩
  exact h.after.sound.distinct x y j hj (hk.trans (by rw [e]))

end Gathered

/-! ## The bodies that are started -/

/-- Between two machines the bodies of `xs` were started, in this order, and no others. -/
def Starts (journal : σ → Journal) (xs : List ModuleId) (s s' : Machine σ κ) : Prop :=
  ∃ k : Journal, journal s'.host = journal s.host ++ k ∧ k.started = xs

theorem Starts.of_eq (hj : journal s'.host = journal s.host) : Starts journal [] s s' :=
  ⟨[], hj.trans (List.append_nil _).symm, rfl⟩

theorem Starts.trans {xs ys : List ModuleId} {s'' : Machine σ κ} (h : Starts journal xs s s')
    (h' : Starts journal ys s' s'') : Starts journal (xs ++ ys) s s'' := by
  obtain ⟨k, hj, rfl⟩ := h
  obtain ⟨l, hj', rfl⟩ := h'
  exact ⟨k ++ l, by rw [hj', hj, List.append_assoc], Journal.started_append k l⟩

/-- The body of a module was started, unless the module has not got what it takes. -/
def StartsBody (journal : σ → Journal) (m : ModuleId) (s s' : Machine σ κ) : Prop :=
  Starts journal [m] s s' ∨ ¬(s.module m).kind.IsRunnable ∧ Starts journal [] s s'

theorem StartsBody.after {s₁ s'' : Machine σ κ} (h : StartsBody journal m s s')
    (hb : s₁.Beside journal s) (hj : journal s''.host = journal s'.host) :
    StartsBody journal m s₁ s'' := by
  have hpre : Starts journal [] s₁ s := .of_eq hb.journal
  have hpost : Starts journal [] s' s'' := .of_eq hj
  refine h.imp (fun h => (hpre.trans h).trans hpost) fun ⟨hk, h⟩ => ⟨?_, (hpre.trans h).trans hpost⟩
  rwa [module, hb.modules] at hk

theorem runBody_starts (hc : Conduct journal owner reserved hosts) (hh : host ∈ hosts)
    (hm : s.isCyclic m) {r : Except Value (Execution κ)}
    (hrun : runBody host m s = some (r, s')) : StartsBody journal m s s' := by
  by_cases hk : (s.module m).kind.IsRunnable
  · obtain ⟨k, hk, hj⟩ := ((runBody_executes (p := ⟨0⟩) hc hh hm hk hrun).1).noted hc
    refine .inl ⟨_, hj, ?_⟩
    rw [← List.singleton_append, List.append_assoc, Journal.started_append,
      Journal.started_append, hk.started_eq, Journal.started_closing]
    rfl
  · refine .inr ⟨hk, .of_eq ?_⟩
    rw [runBody, Act.view_bind] at hrun
    cases hkind : (s.module m).kind with
    | source record env c =>
      rw [hkind] at hk
      exact (hk trivial).elim
    | foreign i c =>
      rw [hkind] at hrun hk
      cases i with
      | true => exact (hk rfl).elim
      | false =>
        cases hrun
        rfl
    | leaf state =>
      rw [hkind] at hrun
      cases hrun
      rfl

theorem startAsyncBody_starts (hc : Conduct journal owner reserved hosts) (hh : host ∈ hosts)
    (hm : s.isCyclic m) (hrun : startAsyncBody host m s = some ((), s')) :
    StartsBody journal m s s' := by
  rw [startAsyncBody, Run.make_bind, Run.update_bind, Run.bind_eq_some] at hrun
  obtain ⟨execution, s₁, hbody, hrun⟩ := hrun
  change runBody host m (s.attachBody host m) = some (execution, s₁) at hbody
  cases hrun
  have hb := attachBody_beside hc hh s m
  have hm' : (s.attachBody host m).isCyclic m := by
    rw [isCyclic, cyclic?, module, hb.modules]
    exact hm
  refine (runBody_starts hc hh hm' hbody).after hb ?_
  obtain hs | ⟨p, code, ha⟩ := continueBody_changes hc hh s₁ m ⟨s.nextPromise, true⟩ execution
  · exact hs.beside.journal
  · exact ha.journal

theorem runSyncBody_starts (hc : Conduct journal owner reserved hosts) (hh : host ∈ hosts)
    (hm : s.isCyclic m) {r : Except Value Unit} (hrun : runSyncBody host m s = some (r, s')) :
    StartsBody journal m s s' := by
  rw [runSyncBody, throwing_bind] at hrun
  obtain ⟨execution, s₁, h₁, h₂⟩ | ⟨e, h₁, rfl⟩ := hrun
  · refine (runBody_starts hc hh hm h₁).after (.refl s) ?_
    cases execution <;> cases h₂ <;> rfl
  · exact runBody_starts hc hh hm h₁

theorem journal_answer (hc : Conduct journal owner reserved hosts) (hh : host ∈ hosts)
    (s : Machine σ κ) (m : ModuleId) : journal (s.answer host m).host = journal s.host := by
  rw [answer]
  split
  · exact (resolve_settles s (hc.track host hh) _ .undefined).beside.journal
  · rfl

theorem journal_failWaiting (hc : Conduct journal owner reserved hosts) (hh : host ∈ hosts)
    (e : Value) (fuel : Nat) : ∀ (s : Machine σ κ) (m : ModuleId),
      journal (s.failWaiting host fuel m e).host = journal s.host := by
  induction fuel with
  | zero => exact fun _ _ => rfl
  | succ fuel ih =>
    intro s m
    have hall : ∀ (xs : List ModuleId) (s : Machine σ κ),
        journal (xs.foldl (fun s x => s.failWaiting host fuel x e) s).host = journal s.host := by
      intro xs
      induction xs with
      | nil => exact fun _ => rfl
      | cons x rest ihxs => exact fun s => (ihxs _).trans (ih s x)
    rw [failWaiting]
    dsimp only
    split
    · rfl
    split
    · exact (reject_settles _ (hc.track host hh) _ e).beside.journal.trans (hall _ _)
    · exact hall _ _

theorem runReady_starts (hc : Conduct journal owner reserved hosts) (hh : host ∈ hosts)
    (hm : s.isCyclic m) (hs : (s.cyclic m).status ≠ .evaluated)
    (hrun : runReady host m s = some ((), s')) : StartsBody journal m s s' := by
  rw [runReady, Run.view_bind, if_neg hs] at hrun
  split at hrun
  · exact startAsyncBody_starts hc hh hm hrun
  obtain ⟨result, s₁, hbody, hrun⟩ := Run.bind_eq_some.1 hrun
  refine (runSyncBody_starts hc hh hm hbody).after (.refl s) ?_
  cases result with
  | ok =>
    cases hrun
    exact journal_answer hc hh _ m
  | error e =>
    cases hrun
    exact journal_failWaiting hc hh e _ s₁ m

/-- What becomes of a module when its turn comes: if it has failed it is passed over, and otherwise
its body is started and no other one. -/
structure Turn (journal : σ → Journal) (host : Host σ κ) (m : ModuleId) (s : Machine σ κ) :
    Prop where
  passed : s.evaluationError? m ≠ none → runReady host m s = some ((), s)
  started : s.evaluationError? m = none → s.status m = .evaluatingAsync ∧
    ∀ s', runReady host m s = some ((), s') → StartsBody journal m s s'
  runnable : (journal s.host).Stable → (s.module m).kind.IsRunnable

theorem Running.turn (hc : Conduct journal owner reserved hosts) (hh : host ∈ hosts)
    {rest : List ModuleId} (h : s.Running journal owner reserved o (m :: rest) released) :
    s.Turn journal host m := by
  have hi := h.awake_ready List.mem_cons_self
  have hm := isCyclic_of_awake hi
  refine ⟨fun he => ?_, fun he => ?_, fun hstable => ?_⟩
  · rw [evaluationError?_of_isCyclic hm] at he
    have hs : (s.cyclic m).status = .evaluated := (h.sound.shaped m).evaluated_of_failed he
    rw [runReady, Run.view_bind, if_pos hs]
    rfl
  · rw [evaluationError?_of_isCyclic hm] at he
    have hs : (s.cyclic m).status = .evaluatingAsync :=
      (h.sound.ready m List.mem_cons_self he).1
    refine ⟨(status_of_isCyclic hm).trans hs, fun s' => runReady_starts hc hh hm ?_⟩
    rw [hs]
    rintro ⟨⟩
  · exact (h.coherent.linked h.idle.linked hstable).runnable m (isLinked_of_awake hi)

/-- The modules of a list get their turns one after the other, and no body is started apart from
theirs. -/
theorem Running.starts (hc : Conduct journal owner reserved hosts) (hh : host ∈ hosts)
    (todo : List ModuleId) : ∀ (released : List ModuleId) (s s' : Machine σ κ),
      s.Running journal owner reserved o todo released →
      (todo.forM (runReady host)) s = some ((), s') →
        ∃ xs : List ModuleId, Starts journal xs s s' ∧ xs.Sublist todo := by
  induction todo with
  | nil =>
    intro released s s' h hrun
    cases hrun
    exact ⟨[], .of_eq rfl, .slnil⟩
  | cons m rest ih =>
    intro released s s' h hrun
    obtain ⟨⟨⟩, s₁, hfirst, hrest⟩ := Run.bind_eq_some.1 hrun
    obtain ⟨xs, hxs, hsub⟩ := ih _ _ _ (runReady_ends hc hh h hfirst) hrest
    have hturn := h.turn hc hh
    by_cases he : s.evaluationError? m = none
    · obtain hone | ⟨-, hnone⟩ := (hturn.started he).2 s₁ hfirst
      · exact ⟨m :: xs, hone.trans hxs, hsub.cons_cons m⟩
      · exact ⟨xs, hnone.trans hxs, hsub.cons m⟩
    · cases (hturn.passed he).symm.trans hfirst
      exact ⟨xs, hxs, hsub.cons m⟩

/-- The modules of `E` get their turns in strictly rising order. Only their bodies are started, in
this order, and of each the body is started if the module has not failed by then. -/
structure RunsInTurn (journal : σ → Journal) (host : Host σ κ) (E : List ModuleId)
    (s : Machine σ κ) : Prop where
  perm : (s.sortByTurn E).Perm E
  sorted : (s.sortByTurn E).Pairwise s.HasEarlierTurn
  turn : ∀ done m rest s', s.sortByTurn E = done ++ m :: rest →
    (done.forM (runReady host)) s = some ((), s') → s'.Turn journal host m
  started : ∀ s', ((s.sortByTurn E).forM (runReady host)) s = some ((), s') →
    ∃ xs : List ModuleId, Starts journal xs s s' ∧ xs.Sublist (s.sortByTurn E)

theorem Gathered.runsInTurn (hc : Conduct journal owner reserved hosts) (hh : host ∈ hosts)
    {E : List ModuleId} (h : Gathered journal owner reserved o d E released s s') :
    s'.RunsInTurn journal host E where
  perm := List.mergeSort_perm E _
  sorted := h.sorted
  turn done m rest s'' hsorted hrun := by
    have hr := h.after.running
    rw [hsorted] at hr
    obtain ⟨_, hr⟩ := runMany_ends hc hh done _ _ _ hr hrun
    exact hr.turn hc hh
  started s'' hrun := Running.starts hc hh _ _ _ _ h.after.running hrun

/-! ## The end of a body -/

/-- A body that was waited for has ended well. The recursion that tells those that wait ends, with
one outcome: it collects the least set of modules that have nothing left to wait for, and counts
down. Then the modules of this set get their turns. -/
theorem ready_set_runs_in_turn (hc : Conduct journal owner reserved hosts) (hh : host ∈ hosts)
    {r : ReactionId} {v : Value} (h : s.TellsEnd journal reserved hosts r (.fulfilled v) d)
    (hd : s.status d = .evaluatingAsync) : ∃ E s', (s.afterBody host r d).readyAfter d = (E, s') ∧
      (∀ E' s'', Collects (s.afterBody host r d) [] ((s.afterBody host r d).cyclic d).parents E'
        s'' ↔ E' = E ∧ s'' = s') ∧
      (s.afterBody host r d).ReadySet d E ∧ (s.afterBody host r d).CountsDown d E s' ∧
      bodySucceeded host d (s.takeFirst r) = ((s'.sortByTurn E).forM (runReady host)) s' ∧
      s'.RunsInTurn journal host E := by
  have hcyc := isCyclic_of_status (.inr hd)
  have hd' : (s.cyclic d).status = .evaluatingAsync := (status_of_isCyclic hcyc).symm.trans hd
  have hbefore := h.gathering hc hh hd'
  have hgathers := hbefore.gathers
  obtain ⟨released, hafter⟩ := hgathers.gathering
  have hgathered : Gathered journal owner reserved _ d _ released (s.afterBody host r d) _ :=
    ⟨h.complete hc hh hd', hbefore, hgathers.collects.collected hbefore.tellable, hafter⟩
  refine ⟨_, _, rfl, fun E' s'' => ⟨fun hE => hgathers.collects.unique hE, ?_⟩,
    hgathered.readySet, hgathered.countsDown, ?_, hgathered.runsInTurn hc hh⟩
  · rintro ⟨rfl, rfl⟩
    exact hgathers.collects
  · have hs : (s.takeFirst r).status d ≠ .evaluated := by
      change s.status d ≠ .evaluated
      rw [hd]
      exact fun e => nomatch e
    rw [bodySucceeded, Run.view_bind, if_neg hs, Run.update_bind, Run.make_bind, Run.view_bind]
    rfl

/-- Module `3` has ended, and `0` waits for `1` and `2`, which wait for `3`, one of them twice. -/
theorem ready_set_runs_in_turn_diamond :
    (Diamond.waiting.afterBody Diamond.host ⟨0⟩ ⟨3⟩).ReadySet ⟨3⟩ [⟨1⟩, ⟨2⟩, ⟨0⟩] ∧
      (bodySucceeded Diamond.host ⟨3⟩ (Diamond.waiting.takeFirst ⟨0⟩)).map
        (fun x => Journal.started x.2.host) = some [⟨3⟩, ⟨1⟩, ⟨2⟩, ⟨0⟩] := by
  have h : Diamond.waiting.TellsEnd id Set.univ {Diamond.host} ⟨0⟩ (.fulfilled .undefined) ⟨3⟩ :=
    ⟨Diamond.reachable_waiting Set.univ, rfl, rfl⟩
  obtain ⟨E, s', hready, -, hset, -, hrun, -⟩ := ready_set_runs_in_turn (diamond.conduct 9 Set.univ)
    (Set.mem_singleton Diamond.host) h rfl
  have hE : [⟨1⟩, ⟨2⟩, ⟨0⟩] = E := congrArg Prod.fst hready
  have hs : ((Diamond.waiting.afterBody Diamond.host ⟨0⟩ ⟨3⟩).readyAfter ⟨3⟩).2 = s' :=
    congrArg Prod.snd hready
  subst hE hs
  rw [sortByTurn, List.mergeSort_of_pairwise (by decide)] at hrun
  rw [hrun]
  exact ⟨hset, rfl⟩

end Machine

end ModuleGraph

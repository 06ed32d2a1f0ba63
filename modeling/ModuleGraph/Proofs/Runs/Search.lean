import ModuleGraph.Proofs.Evaluation.Closing
import ModuleGraph.Proofs.Evaluation.Visiting
import ModuleGraph.Proofs.Runs.Leaves

/-! # The search of a run

An evaluation visits modules while the promises of the machine stay coherent. Nobody is told
anything before the search is over: the only open module that a promise answers for is the first
one, and it is told late. -/

namespace ModuleGraph

open Relation

variable {σ κ : Type} {journal : σ → Journal} {owner : κ → ModuleId} {reserved : Set PromiseId}
variable {hosts : Set (Host σ κ)} {host : Host σ κ}

structure Focus.Idle (o : Focus) : Prop where
  busy : o.busy = none
  leaf : o.leaf = none
  linked : ¬o.linking

theorem Focus.Idle.excused {o : Focus} {xs ys : List ModuleId}
    (h : ({ o with excused := xs } : Focus).Idle) : ({ o with excused := ys } : Focus).Idle :=
  ⟨h.busy, h.leaf, h.linked⟩

namespace Machine

variable {s s' : Machine σ κ} {o : Focus} {a : Agenda} {m n d x : ModuleId} {t t' : Traversal}
variable {path : List Frame} {f : Frame} {r : String}

/-! ## Updates that the graph follows -/

theorem graph_updateCyclic (hm : s.Has m) (hc : s.isCyclic m) {f : Cyclic → Cyclic}
    (hf : ∀ c, (f c).capability = c.capability ∧ (f c).requested = c.requested) (a : Agenda) :
    (s.updateCyclic m f).graph journal a = (s.graph journal a).set m (f (s.cyclic m)) := by
  rw [(refields_updateCyclic s m hf).graph_eq, fields_updateCyclic hm hc]
  rfl

theorem graph_reach (hm : ¬(s.cyclic m).status.IsIdle) (n : ModuleId) (a : Agenda) :
    (s.updateCyclic m (·.reach (s.cyclic n).ancestor)).graph journal a =
      (s.graph journal a).reach m n := by
  refine graph_updateCyclic (has_of_awake hm) (isCyclic_of_awake hm) ?_ a
  exact fun _ => ⟨rfl, rfl⟩

theorem refields_await (s : Machine σ κ) (m d : ModuleId) : s.Refields (s.await m d) := by
  rw [await]
  split
  · refine (refields_updateCyclic s m ?_).trans (refields_updateCyclic _ d ?_) <;>
      exact fun _ => ⟨rfl, rfl⟩
  · exact .refl s

theorem graph_await (hm : ¬(s.cyclic m).status.IsIdle) (hd : ¬(s.cyclic d).status.IsIdle)
    (a : Agenda) : (s.await m d).graph journal a = (s.graph journal a).await m d := by
  rw [await, Graph.await]
  by_cases ho : (s.cyclic d).order.isTurn
  · have ho' : ((s.graph journal a).fields d).order.isTurn := ho
    have hr : s.Refields _ := refields_updateCyclic s m
      (f := fun c => { c with pending := c.pending.map (· + 1) }) fun _ => ⟨rfl, rfl⟩
    have hfields := fields_updateCyclic (has_of_awake hm) (isCyclic_of_awake hm)
      fun c => { c with pending := c.pending.map (· + 1) }
    rw [if_pos ho, if_pos ho', (refields_updateCyclic _ d ?_).graph_eq,
      fields_updateCyclic ((hr.has_iff d).2 (has_of_awake hd))
        (by rw [hr.isCyclic]; exact isCyclic_of_awake hd), hfields, hr.graph_eq]
    · rfl
    · exact fun _ => ⟨rfl, rfl⟩
  · have ho' : ¬((s.graph journal a).fields d).order.isTurn := ho
    rw [if_neg ho, if_neg ho']

theorem refields_takeTurn (s : Machine σ κ) (m : ModuleId) : s.Refields (s.takeTurn m) := by
  have h : s.Refields (s.updateCyclic m fun c => { c with order := .turn s.nextTurn }) :=
    refields_updateCyclic s m fun _ => ⟨rfl, rfl⟩
  exact ⟨h.size, h.isCyclic, h.leaf, h.capability, h.requested, rfl, rfl, rfl, rfl, rfl, rfl, rfl⟩

theorem fields_takeTurn (hm : ¬(s.cyclic m).status.IsIdle) : (s.takeTurn m).cyclic =
    Function.update s.cyclic m { s.cyclic m with order := .turn s.nextTurn } :=
  fields_updateCyclic (has_of_awake hm) (isCyclic_of_awake hm)
    fun c => { c with order := .turn s.nextTurn }

theorem LinkClosed.takeTurn (h : s.LinkClosed journal) (m : ModuleId) :
    (s.takeTurn m).LinkClosed journal :=
  (h.updateCyclic m (f := fun c => { c with order := .turn s.nextTurn }) (fun _ => rfl)
    fun _ _ => .inr ⟨rfl, rfl, rfl⟩).mono (fun _ => .rfl) (fun _ _ => id) (fun _ _ => rfl)
    (fun _ _ => id) fun _ => id

theorem graph_takeTurn (hm : ¬(s.cyclic m).status.IsIdle) (a : Agenda) :
    (s.takeTurn m).graph journal a = (s.graph journal a).takeTurn m := by
  rw [(refields_takeTurn s m).graph_eq, fields_takeTurn hm]
  rfl

/-! ## Coherence during a search -/

def SameTurn (s s' : Machine σ κ) (m : ModuleId) : Prop :=
  ((s'.cyclic m).order = (s.cyclic m).order ∧ (s'.cyclic m).error = (s.cyclic m).error ∧
      (s'.cyclic m).pending = (s.cyclic m).pending) ∨
    (s.cyclic m).order = .unset ∧ (s'.cyclic m).order = .unset

theorem Refields.mayTell (hr : s.Refields s') (ht : s.SameTurn s' m) {excused : List ModuleId}
    (h : s.MayTell excused m) : s'.MayTell excused m := by
  obtain ⟨⟨hc, ho, hp⟩, hf, hx⟩ := h
  obtain ⟨ho', he', hp'⟩ | ⟨hu, -⟩ := ht
  · rw [← ho', ← he'] at hp hf
    rw [← ho'] at ho
    rw [← hp'] at hp
    exact ⟨⟨by rwa [hr.isCyclic], ho, hp⟩, hf, hx⟩
  · exact (ho hu).elim

theorem SameTurn.due (ht : s.SameTurn s' m) {excused : List ModuleId} (h : s'.Due excused m) :
    s.Due excused m := by
  obtain ⟨ho', he', hp'⟩ | ⟨-, hu⟩ := ht
  · rwa [Due, ho', he', hp'] at h
  · rw [Due, hu] at h
    cases h.1

theorem Coherent.searched (h : s.Coherent journal owner reserved o) (hr : s.Refields s')
    (hturn : ∀ m, s.SameTurn s' m)
    (hlinked : (journal s.host).Stable → s.LinkClosed journal → s'.LinkClosed journal)
    (hstage : ∀ m, s.SameStage s' m ∨ (s.cyclic m).root = none ∧
      (s'.cyclic m).error = (s.cyclic m).error ∧ ((s.cyclic m).capability = none ∨
        o.IsLate m ∧ ((s'.cyclic m).root = none ∨ (s'.cyclic m).root = some m))) :
    s'.Coherent journal owner reserved o :=
  h.untold hr (fun m => hr.mayTell (hturn m)) (fun m => (hturn m).due) hlinked hstage

theorem Coherent.reach (h : s.Coherent journal owner reserved o) (hm : ¬(s.cyclic m).status.IsIdle)
    (i : Option Nat) :
    (s.updateCyclic m (·.reach i)).Coherent journal owner reserved o := by
  have hfield := fun (β : Type) (φ : Cyclic → β) (hφ : ∀ c : Cyclic, φ (c.reach i) = φ c) x =>
    field_updateCyclic (s := s) (m := m) (n := x) φ (f := (·.reach i)) hφ
  refine h.searched (refields_updateCyclic s m ?_) (fun x => .inl ⟨?_, ?_, ?_⟩)
    (fun _ hl => hl.foldl (f := (·.reach i)) (fun _ => rfl) (fun _ => id) [m] ?_)
    fun x => .inl ⟨?_, ?_, ?_⟩
  case refine_1 => exact fun _ => ⟨rfl, rfl⟩
  case refine_5 => simpa using isLinked_of_awake hm
  all_goals exact hfield _ _ (fun _ => rfl) x

/-- Only the number of waits of the one and the parents of the other change. -/
theorem cyclic_await {β : Type} (s : Machine σ κ) (m d : ModuleId) (φ : Cyclic → β)
    (hφ : ∀ c k ps, φ { c with pending := k, parents := ps } = φ c) (x : ModuleId) :
    φ ((s.await m d).cyclic x) = φ (s.cyclic x) := by
  rw [await]
  split
  · rw [field_updateCyclic φ fun c => hφ c c.pending _,
      field_updateCyclic φ fun c => hφ c _ c.parents]
  · rfl

theorem LinkClosed.await (h : s.LinkClosed journal) (m d : ModuleId) :
    (s.await m d).LinkClosed journal := by
  rw [Machine.await]
  split
  · refine (h.updateCyclic m ?_ ?_).updateCyclic d ?_ ?_
    all_goals first | exact fun _ => rfl | exact fun _ _ => .inr ⟨rfl, rfl, rfl⟩
  · exact h

theorem Coherent.await (h : s.Coherent journal owner reserved o)
    (hm : (s.cyclic m).order = .unset) (d : ModuleId) :
    (s.await m d).Coherent journal owner reserved o := by
  have hfield := fun (β : Type) (φ : Cyclic → β) hφ => cyclic_await s m d φ hφ
  refine h.searched (refields_await s m d) (fun x => ?_) (fun _ hl => hl.await m d)
    fun x => .inl ⟨?_, ?_, ?_⟩
  · by_cases e : x = m
    · rw [e]
      exact .inr ⟨hm, (hfield _ (·.order) (fun _ _ _ => rfl) m).trans hm⟩
    · refine .inl ⟨hfield _ (·.order) (fun _ _ _ => rfl) x,
        hfield _ (·.error) (fun _ _ _ => rfl) x, ?_⟩
      rw [Machine.await]
      split
      · refine (field_updateCyclic (·.pending) ?_).trans ?_
        · exact fun _ => rfl
        · rw [cyclic_updateCyclic_of_ne _ e]
      · rfl
  · exact hfield _ (·.status) (fun _ _ _ => rfl) x
  · exact hfield _ (·.error) (fun _ _ _ => rfl) x
  · exact hfield _ (·.root) (fun _ _ _ => rfl) x

/-! ## A search that is going on -/

/-- The evaluation of one module is visiting the modules of a path. -/
structure Visiting (journal : σ → Journal) (owner : κ → ModuleId) (reserved : Set PromiseId)
    (o : Focus) (t : Traversal) (path : List Frame) (s : Machine σ κ) : Prop where
  searching : (s.graph journal (.search t path)).Searching
  coherent : s.Coherent journal owner reserved o
  idle : o.Idle
  /-- What is answered for late was opened first. -/
  lowest : ∀ x, o.IsLate x → x ∈ t.stack → (s.cyclic x).visit = some 0
  unopened : ∀ x, o.IsLate x → (s.cyclic x).status.IsIdle → path = [] ∧ t.visits = 0

namespace Visiting

theorem head (h : s.Visiting journal owner reserved o t (f :: path)) :
    (s.cyclic f.module).status = .evaluating := h.searching.head_evaluating rfl

theorem head_awake (h : s.Visiting journal owner reserved o t (f :: path)) :
    ¬(s.cyclic f.module).status.IsIdle :=
  Status.awake_of_evaluating h.head

theorem open_iff (h : s.Visiting journal owner reserved o t path) (x : ModuleId) :
    (s.cyclic x).status = .evaluating ↔ x ∈ t.stack := h.searching.open_iff x

/-- A promise that answers for an open module does so late. -/
theorem untold (h : s.Visiting journal owner reserved o t path)
    (hx : (s.cyclic x).status.IsIdle ∨ (s.cyclic x).status = .evaluating) :
    (s.cyclic x).capability = none ∨ o.IsLate x := h.coherent.unasked x hx

theorem calm (h : s.Visiting journal owner reserved o t path)
    (hu : (s.graph journal (.search t path)).Calm (s'.graph journal (.search t path)))
    (hc : s'.Coherent journal owner reserved o) : s'.Visiting journal owner reserved o t path := by
  refine ⟨h.searching.calm hu, hc, h.idle, fun x hl hx => ?_, fun x hl hi => ?_⟩
  · have hx' : ¬(s.cyclic x).status.IsIdle := Status.awake_of_evaluating ((h.open_iff x).2 hx)
    obtain ⟨⟨a, c, e⟩, -⟩ := hu.awake x hx'
    rw [show s'.cyclic x = _ from e]
    exact h.lowest x hl hx
  · exact h.unopened x hl ((hu.awake_iff x).1 hi)

theorem enter (h : s.Visiting journal owner reserved o t path) (hm : (s.cyclic m).status.IsIdle)
    (hhas : s.Has m) (hcyclic : s.isCyclic m)
    (hedge : ∀ f ∈ path.head?, (s.graph journal (.search t path)).Requests f.module m)
    (hlinked : (journal s.host).Stable → (s.status m).IsLinked)
    (hlate : ∀ x, o.IsLate x → (s.cyclic x).status.IsIdle → x = m) :
    (s.updateCyclic m fun c => Graph.opening c t.visits).Visiting journal owner reserved o
      ⟨m :: t.stack, t.visits + 1⟩ (⟨m, [], (s.cyclic m).requested, true⟩ :: path) := by
  have hr : s.Refields (s.updateCyclic m fun c => Graph.opening c t.visits) :=
    refields_updateCyclic s m fun _ => ⟨rfl, rfl⟩
  have hfields := fields_updateCyclic hhas hcyclic fun c => Graph.opening c t.visits
  have hfresh := ((h.searching.shaped m).idle hm).1
  have hclosed : (journal s.host).Stable → s.LinkClosed journal →
      (s.updateCyclic m fun c => Graph.opening c t.visits).LinkClosed journal := fun hs hl =>
    LinkClosed.foldl (f := fun c => Graph.opening c t.visits) (fun _ => rfl)
      (fun _ _ => trivial) [m]
      hl (by simpa using hlinked hs)
  refine ⟨?_, h.coherent.searched hr (fun x => ?_) hclosed (fun x => ?_), h.idle,
    fun x hl hx => ?_, fun x hl hx => ?_⟩
  · have hs := h.searching.enter hm hhas hcyclic hedge
    rw [hr.graph_eq, hfields]
    exact hs
  · by_cases e : x = m
    · subst e
      refine .inr ⟨hfresh.2.2.1, ?_⟩
      rw [hfields, Function.update_self]
      exact hfresh.2.2.1
    · rw [SameTurn, hfields, Function.update_of_ne e]
      exact .inl ⟨rfl, rfl, rfl⟩
  · by_cases e : x = m
    · subst e
      refine .inr ⟨hfresh.2.1, ?_, (h.untold (.inl hm)).imp id fun hl => ⟨hl, .inl ?_⟩⟩
      · rw [hfields, Function.update_self]
        rfl
      · rw [hfields, Function.update_self]
        exact hfresh.2.1
    · refine .inl ⟨?_, ?_, ?_⟩ <;> rw [hfields, Function.update_of_ne e]
  · rw [hfields]
    by_cases e : x = m
    · subst e
      rw [Function.update_self, ← (h.unopened x hl hm).2]
      rfl
    · rw [Function.update_of_ne e]
      exact h.lowest x hl ((List.mem_cons.1 hx).resolve_left e)
  · by_cases e : x = m
    · subst e
      rw [hfields, Function.update_self] at hx
      exact hx.elim
    · rw [hfields, Function.update_of_ne e] at hx
      exact (e (hlate x hl hx)).elim

/-! ### What a request has led to -/

def meet (s : Machine σ κ) (m n : ModuleId) : Machine σ κ :=
  (s.updateCyclic m (·.reach (s.cyclic n).ancestor)).await m n

variable {asked todo : List String}

theorem frame_mem {f : Frame} : f ∈ (s.graph journal (.search t (f :: path))).path :=
  List.mem_cons_self ..

/-- The module being visited has neither run nor got a turn. -/
theorem fresh (h : s.Visiting journal owner reserved o t (⟨m, asked, todo, true⟩ :: path)) :
    (s.cyclic m).order = .unset ∧ (journal s.host).starts m = 0 :=
  (h.searching.frames _ frame_mem).fresh rfl

theorem visit_meet (s : Machine σ κ) (m n x : ModuleId) :
    ((meet s m n).cyclic x).visit = (s.cyclic x).visit :=
  (cyclic_await _ m n (·.visit) (fun _ _ _ => rfl) x).trans
    (field_updateCyclic (·.visit) fun _ => rfl)

theorem status_meet (s : Machine σ κ) (m n x : ModuleId) :
    ((meet s m n).cyclic x).status = (s.cyclic x).status :=
  (cyclic_await _ m n (·.status) (fun _ _ _ => rfl) x).trans
    (field_updateCyclic (·.status) fun _ => rfl)

/-- A late module was opened if a module is being visited. -/
theorem awake_of_late (h : s.Visiting journal owner reserved o t (f :: path)) (hl : o.IsLate x) :
    ¬(s.cyclic x).status.IsIdle := fun hi => nomatch (h.unopened x hl hi).1

theorem coherent_meet (h : s.Visiting journal owner reserved o t (⟨m, asked, todo, true⟩ :: path))
    (n : ModuleId) : (meet s m n).Coherent journal owner reserved o := by
  refine (h.coherent.reach h.head_awake _).await
    ((field_updateCyclic (·.order) ?_).trans h.fresh.1) n
  exact fun _ => rfl

theorem graph_meet (hm : ¬(s.cyclic m).status.IsIdle) (hn : ¬(s.cyclic n).status.IsIdle)
    (a : Agenda) : (meet s m n).graph journal a = ((s.graph journal a).reach m n).await m n := by
  have hstatus : ∀ x, ((s.updateCyclic m (·.reach (s.cyclic n).ancestor)).cyclic x).status =
      (s.cyclic x).status := fun x => field_updateCyclic (·.status) fun _ => rfl
  rw [meet, graph_await (by rwa [hstatus]) (by rwa [hstatus]), graph_reach hm]

theorem advance_leaf
    (h : s.Visiting journal owner reserved o t (⟨m, asked, r :: todo, true⟩ :: path))
    (hn : Entry.resolved m r n ∈ journal s.host) (hl : s.LeafDone n) :
    s.Visiting journal owner reserved o t (⟨m, asked ++ [r], todo, true⟩ :: path) :=
  ⟨h.searching.advance rfl ⟨n, hn, .inl hl⟩, h.coherent, h.idle, h.lowest,
    fun _ hl hi => (h.awake_of_late hl hi).elim⟩

theorem advance_open
    (h : s.Visiting journal owner reserved o t (⟨m, asked, r :: todo, true⟩ :: path))
    (hn : Entry.resolved m r n ∈ journal s.host) (hr : r ∈ (s.cyclic m).requested)
    (hopen : (s.cyclic n).status = .evaluating) :
    (meet s m n).Visiting journal owner reserved o t (⟨m, asked ++ [r], todo, true⟩ :: path) := by
  have hns := (h.open_iff n).1 hopen
  have hm := h.head_awake
  have hn' : ¬(s.cyclic n).status.IsIdle := Status.awake_of_evaluating hopen
  obtain ⟨hreach, hsees⟩ := h.searching.reach rfl hns ⟨r, hr, hn⟩
  have hopened := (h.searching.shaped n).opened hopen
  have hfield := fun (β : Type) (φ : Cyclic → β) hφ x =>
    Graph.field_reach (s.graph journal (.search t (⟨m, asked, r :: todo, true⟩ :: path))) m n φ hφ x
  have hedge : ((s.graph journal (.search t (⟨m, asked, r :: todo, true⟩ :: path))).reach m n
      ).Requests m n := ⟨r, (hfield _ (·.requested) (fun _ _ => rfl) m).symm ▸ hr, hn⟩
  have hawait :=
    hreach.await (d := n) rfl rfl ((hfield _ (·.error) (fun _ _ => rfl) n).trans hopened.1)
    (fun q hq => by
      rw [hfield _ (·.root) fun _ _ => rfl] at hq
      cases hopened.2.1.symm.trans hq) (.single hedge) fun _ => hsees
  rw [← graph_meet hm hn'] at hawait
  refine ⟨hawait.advance rfl ⟨n, ?_, .inr (.inl ⟨?_, ?_⟩)⟩, h.coherent_meet n, h.idle,
    fun x hl hx => (visit_meet s m n x).trans (h.lowest x hl hx),
    fun x hl hi => (h.awake_of_late hl (status_meet s m n x ▸ hi)).elim⟩
  · change _ ∈ journal (meet s m n).host
    rw [meet, (refields_await _ m n).host]
    exact hn
  · exact hns
  · rw [graph_meet hm hn']
    exact hsees.await m n

theorem advance_left {requested : List String}
    (h : s.Visiting journal owner reserved o t
      (⟨n, requested, [], false⟩ :: ⟨m, asked, r :: todo, true⟩ :: path))
    (hn : Entry.resolved m r n ∈ journal s.host)
    (hleft : (s.graph journal (.search t (⟨n, requested, [], false⟩ ::
      ⟨m, asked, r :: todo, true⟩ :: path))).Left n)
    (hlow : (s.graph journal (.search t (⟨n, requested, [], false⟩ ::
      ⟨m, asked, r :: todo, true⟩ :: path))).lowOf n <
        (s.graph journal (.search t (⟨n, requested, [], false⟩ ::
      ⟨m, asked, r :: todo, true⟩ :: path))).visitOf n) :
    (meet s m n).Visiting journal owner reserved o t (⟨m, asked ++ [r], todo, true⟩ :: path) := by
  have hn' := h.head_awake
  have hmem : (⟨m, asked, r :: todo, true⟩ : Frame) ∈ (s.graph journal (.search t
      (⟨n, requested, [], false⟩ :: ⟨m, asked, r :: todo, true⟩ :: path))).path :=
    List.mem_cons_of_mem _ (List.mem_cons_self ..)
  have hm : ¬(s.cyclic m).status.IsIdle := Status.awake_of_evaluating (h.searching.evaluating hmem)
  have horder : (s.cyclic m).order = .unset := ((h.searching.frames _ hmem).fresh rfl).1
  have hmeet : (meet s m n).graph journal (.search t (⟨n, requested, [], false⟩ ::
      ⟨m, asked, r :: todo, true⟩ :: path)) = _ := graph_meet hm hn' _
  have hpath : (meet s m n).graph journal (.search t (⟨m, asked, r :: todo, true⟩ :: path)) = _ :=
    congrArg (fun g : Graph => { g with path := ⟨m, asked, r :: todo, true⟩ :: path }) hmeet
  obtain ⟨hs, hsees⟩ := h.searching.leave rfl rfl hleft hlow hpath
  refine ⟨hs.advance rfl ⟨n, ?_, .inr (.inl ⟨?_, hsees⟩)⟩, ?_, h.idle,
    fun x hl hx => (visit_meet s m n x).trans (h.lowest x hl hx),
    fun x hl hi => (h.awake_of_late hl (status_meet s m n x ▸ hi)).elim⟩
  · change _ ∈ journal (meet s m n).host
    rw [meet, (refields_await _ m n).host]
    exact hn
  · exact (h.open_iff n).1 h.head
  · refine (h.coherent.reach hm _).await ((field_updateCyclic (·.order) ?_).trans horder) n
    exact fun _ => rfl

/-- The request led to a cycle that is closed and has not failed. -/
theorem advance_closed
    (h : s.Visiting journal owner reserved o t (⟨m, asked, r :: todo, true⟩ :: path))
    (hn : Entry.resolved m r n ∈ journal s.host) (hr : r ∈ (s.cyclic m).requested)
    (hroot : (s.cyclic n).root = some d) (he : (s.cyclic d).error = none) :
    (s.await m d).Visiting journal owner reserved o t (⟨m, asked ++ [r], todo, true⟩ :: path) := by
  have hm := h.head_awake
  have hmember := h.searching.member n d hroot
  have hd : ¬(s.cyclic d).status.IsIdle := by
    obtain hs | hs := hmember.finished <;>
      rw [show (s.cyclic d).status = _ from hs] <;> exact id
  have hclosed : d ∉ t.stack := fun hs => by
    rw [← h.open_iff] at hs
    obtain hs' | hs' := hmember.finished <;> cases hs.symm.trans hs'
  have hawait := h.searching.await (d := d) rfl rfl he
    (fun q hq => Option.some.inj (hq.symm.trans hmember.root)) (.head ⟨r, hr, hn⟩ hmember.up)
    fun hs => (hclosed hs).elim
  have hwaits := h.searching.awaited h.fresh.1 he hmember.root
  rw [← graph_await hm hd] at hawait hwaits
  refine ⟨hawait.advance rfl ⟨n, ?_, .inr (.inr ⟨d, ?_, hwaits⟩)⟩, h.coherent.await h.fresh.1 d,
    h.idle, fun x hl hx => ?_, fun x hl hi => (h.awake_of_late hl ?_).elim⟩
  · change _ ∈ journal (s.await m d).host
    rw [(refields_await s m d).host]
    exact hn
  · exact (cyclic_await s m d (·.root) (fun _ _ _ => rfl) n).trans hroot
  · exact (cyclic_await s m d (·.visit) (fun _ _ _ => rfl) x).trans (h.lowest x hl hx)
  · rwa [← cyclic_await s m d (·.status) (fun _ _ _ => rfl) x]

/-! ### Closing a cycle -/

theorem isLinked_close {c : Cyclic} (h : c.status.IsLinked) :
    (Cyclic.close m c).status.IsLinked := by
  rw [Cyclic.close]
  rcases hc : c.order with _ | _ | _ <;> simp only
  · trivial
  · trivial
  · exact h

/-- What was opened first is the root of each cycle that it belongs to. -/
theorem eq_of_late {pre post : List ModuleId}
    (h : s.Visiting journal owner reserved o t (f :: path))
    (hr : (s.graph journal (.search t (f :: path))).Root f path pre post)
    (hx : x ∈ pre ++ [f.module]) (hl : o.IsLate x) : x = f.module := by
  have hle := (hr.mem_cycle_iff h.searching (hr.mem_stack hx)).1 hx
  have hx0 : (s.graph journal (.search t (f :: path))).visitOf x = 0 := by
    change ((s.cyclic x).visit).getD 0 = 0
    rw [h.lowest x hl (hr.mem_stack hx)]
    rfl
  refine (hr.search h.searching).visit_injective ?_ (hr.search h.searching).head_mem (by omega)
  rw [← hr.stack_eq]
  exact hr.mem_stack hx

theorem close {pre post : List ModuleId}
    (h : s.Visiting journal owner reserved o t (f :: path))
    (hr : (s.graph journal (.search t (f :: path))).Root f path pre post) :
    ((pre ++ [f.module]).foldl (fun s x => s.updateCyclic x (Cyclic.close f.module)) s).Visiting
      journal owner reserved o { t with stack := post } path := by
  have hstack : ∀ x ∈ pre ++ [f.module], (s.cyclic x).status = .evaluating := fun x hx =>
    (h.open_iff x).2 (hr.mem_stack hx)
  have hopen : ∀ x ∈ pre ++ [f.module], ¬(s.cyclic x).status.IsIdle := fun x hx =>
    Status.awake_of_evaluating (hstack x hx)
  have hawake : ∀ x ∈ pre ++ [f.module], s.Has x ∧ s.isCyclic x := fun x hx =>
    ⟨has_of_awake (hopen x hx), isCyclic_of_awake (hopen x hx)⟩
  have hnodup : (pre ++ [f.module]).Nodup := by
    have := (hr.search h.searching).nodup
    rw [List.append_cons] at this
    exact (List.nodup_append.1 this).1
  have hrefields : s.Refields
      ((pre ++ [f.module]).foldl (fun s x => s.updateCyclic x (Cyclic.close f.module)) s) := by
    refine .foldl s ?_ _
    exact fun _ => ⟨rfl, rfl⟩
  have hfields := fields_foldl_updateCyclic (Cyclic.close f.module) hnodup hawake
  have hfield := fun (β : Type) (φ : Cyclic → β) (hφ : ∀ c, φ (Cyclic.close f.module c) = φ c) x =>
    field_foldl_updateCyclic (s := s) (n := x) φ hφ (pre ++ [f.module])
  have hin : ∀ {x}, x ∉ pre ++ [f.module] → ((pre ++ [f.module]).foldl
      (fun s x => s.updateCyclic x (Cyclic.close f.module)) s).cyclic x = s.cyclic x :=
    fun hx => (hfields _).trans (if_neg hx)
  refine ⟨?_, h.coherent.searched hrefields (fun x => .inl ⟨?_, ?_, ?_⟩) (fun _ hl => ?_)
    (fun x => ?_),
    h.idle, fun x hl hx => ?_, fun x hl hi => (h.awake_of_late hl ?_).elim⟩
  · rw [hrefields.graph_eq, funext hfields, nextTurn_foldl_updateCyclic]
    exact hr.searching h.searching
  · exact hfield _ (·.order) (fun _ => rfl) x
  · exact hfield _ (·.error) (fun _ => rfl) x
  · exact hfield _ (·.pending) (fun _ => rfl) x
  · refine LinkClosed.foldl (f := Cyclic.close f.module) (fun _ => rfl) (fun c hc => ?_) _ hl
      fun x hx => isLinked_of_awake (hopen x hx)
    exact isLinked_close hc
  · by_cases hx : x ∈ pre ++ [f.module]
    · refine .inr ⟨((h.searching.shaped x).opened (hstack x hx)).2.1,
        hfield _ (·.error) (fun _ => rfl) x,
        (h.untold (.inr (hstack x hx))).imp id fun hl => ⟨hl, .inr ?_⟩⟩
      rw [hfields, if_pos hx, h.eq_of_late hr hx hl]
      rfl
    · exact .inl ⟨by rw [hin hx], by rw [hin hx], by rw [hin hx]⟩
  · have hxs : x ∈ t.stack := by
      rw [show t.stack = pre ++ f.module :: post from hr.stack_eq]
      simp [show x ∈ post from hx]
    exact (hfield _ (·.visit) (fun _ => rfl) x).trans (h.lowest x hl hxs)
  · by_cases hx : x ∈ pre ++ [f.module]
    · rw [hfields, if_pos hx] at hi
      obtain ⟨hs, -⟩ | ⟨hs, -⟩ := Graph.status_close_of_open (m := f.module) h.searching.toSound
        (hr.mem_stack hx)
      · rw [show (Cyclic.close f.module (s.cyclic x)).status = .evaluated from hs] at hi
        exact hi.elim
      · rw [show (Cyclic.close f.module (s.cyclic x)).status = .evaluatingAsync from hs] at hi
        exact hi.elim
    · rwa [hin hx] at hi

end Visiting

end Machine

end ModuleGraph

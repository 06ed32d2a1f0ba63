import ModuleGraph.Proofs.Runs.Search

/-! # The visits of a run

A module that is visited for the first time handles its requests, then it runs or gets a turn, and
when it is the root of its cycle the cycle is closed. A visit that throws leaves the modules on the
stack to be failed together. -/

namespace ModuleGraph

open Relation

variable {σ κ : Type} {journal : σ → Journal} {owner : κ → ModuleId} {reserved : Set PromiseId}
variable {hosts : Set (Host σ κ)} {host : Host σ κ}

namespace Machine

variable {s s' : Machine σ κ} {o : Focus} {m n x : ModuleId} {t t' : Traversal}
variable {path : List Frame} {f : Frame} {r : String} {asked todo requested : List String}
variable {result : Except Value Unit}

def Notes (journal : σ → Journal) (s s' : Machine σ κ) : Prop :=
  ∀ e ∈ journal s.host, e ∈ journal s'.host

theorem Notes.of_host (h : s'.host = s.host) : s.Notes journal s' := fun e he => by rwa [h]

theorem Notes.trans {s'' : Machine σ κ} (h : s.Notes journal s') (h' : s'.Notes journal s'') :
    s.Notes journal s'' := fun e he => h' e (h e he)

theorem Notes.stable (h : s.Notes journal s') (hs : (journal s'.host).Stable) :
    (journal s.host).Stable :=
  fun m r n n' hn hn' => hs m r n n' (h _ hn) (h _ hn')

namespace Visiting

/-! ## Running a module whose requests are handled -/

/-- The module being visited is about to run or to get a turn. -/
theorem reframe (h : s.Visiting journal owner reserved o t (⟨m, asked, todo, true⟩ :: path)) :
    s.Visiting journal owner reserved o t (⟨m, asked, todo, false⟩ :: path) :=
  ⟨h.searching.reframe rfl rfl fun hf => ⟨hf.requested, hf.handled, fun e => nomatch e⟩, h.coherent,
    h.idle, h.lowest, fun _ hl hi => (h.awake_of_late hl hi).elim⟩

theorem ran {excused : List ModuleId}
    (h : s.Visiting journal owner reserved { o with excused } t (f :: path)) (hf : f.fresh = false)
    (hr : (s.graph journal (.search t (f :: path))).Ran f.module
      (s'.graph journal (.search t (f :: path))))
    (hm : (s.graph journal (.search t (f :: path))).Startable f.module)
    (hc : s'.Coherent journal owner reserved o) :
      s'.Visiting journal owner reserved o t (f :: path) := by
  refine ⟨h.searching.ran hr rfl hf hm, hc, h.idle.excused, fun x hl hx => ?_, fun x hl hi => ?_⟩
  · obtain ⟨a, c, e⟩ := hr.fields (x := x) (h.awake_of_late hl)
    rw [show s'.cyclic x = _ from e]
    exact h.lowest x hl hx
  · obtain ⟨a, c, e⟩ := hr.fields (x := x) (h.awake_of_late hl)
    rw [show s'.cyclic x = _ from e] at hi
    exact (h.awake_of_late hl hi).elim

theorem takeTurn (h : s.Visiting journal owner reserved o t (⟨m, asked, todo, true⟩ :: path))
    (hp : (s.cyclic m).pending = some 0 → (s.cyclic m).hasAwait) {excused : List ModuleId}
    (hexcused : ∀ x, x ≠ m → (x ∈ excused ↔ x ∈ o.excused))
    (hm : (s.cyclic m).pending = some 0 → m ∈ excused) :
    (s.takeTurn m).Visiting journal owner reserved { o with excused } t
      (⟨m, asked, todo, false⟩ :: path) := by
  obtain ⟨ho, hstarts⟩ := h.fresh
  have hfields := fields_takeTurn h.head_awake
  have hself : ∀ x, x ≠ m → (s.takeTurn m).cyclic x = s.cyclic x := fun x hx => by
    rw [hfields, Function.update_of_ne hx]
  have hstage : ∀ x, s.SameStage (s.takeTurn m) x := by
    intro x
    by_cases e : x = m
    · subst e
      refine ⟨?_, ?_, ?_⟩ <;> rw [hfields, Function.update_self]
    · exact ⟨by rw [hself x e], by rw [hself x e], by rw [hself x e]⟩
  refine ⟨?_, h.coherent.untold (refields_takeTurn s m) (fun x hx => ?_) (fun x hx => ?_)
    (fun _ hl => hl.takeTurn m) fun x => .inl (hstage x), h.idle.excused,
    fun x hl hx => ?_, fun x hl hi => ?_⟩
  · rw [graph_takeTurn h.head_awake]
    exact h.reframe.searching.takeTurn (f := ⟨m, asked, todo, false⟩) rfl rfl ho hstarts hp
  · obtain ⟨⟨hcyc, horder, hpending⟩, hfailed, hxe⟩ := hx
    have hxm : x ≠ m := by
      rintro rfl
      exact horder ho
    rw [← hself x hxm] at horder hpending hfailed
    exact ⟨⟨by rwa [(refields_takeTurn s m).isCyclic], horder, hpending⟩, hfailed,
      fun e => hxe ((hexcused x hxm).1 e)⟩
  · obtain ⟨hturn, he, hp0, hxe⟩ := hx
    have hxm : x ≠ m := by
      rintro rfl
      rw [hfields, Function.update_self] at hp0
      exact hxe (hm hp0)
    rw [hself x hxm] at hturn he hp0
    exact ⟨hturn, he, hp0, fun e => hxe ((hexcused x hxm).2 e)⟩
  · by_cases e : x = m
    · subst e
      rw [hfields, Function.update_self]
      exact h.lowest x hl hx
    · rw [hself x e]
      exact h.lowest x hl hx
  · rw [(hstage x).status] at hi
    exact (h.awake_of_late hl hi).elim

/-- A module that waits for nothing more may be started. -/
theorem awaited (h : s.Visiting journal owner reserved o t (f :: path))
    (hp : (s.cyclic f.module).pending = some 0) (d : ModuleId)
    (hd : f.module ∈ (s.cyclic d).parents) :
    (s.graph journal (.search t (f :: path))).Complete d := by
  have hdoom : f.module ∉ (s.graph journal (.search t (f :: path))).doom := by
    rw [h.searching.alone.doom]
    exact List.not_mem_nil
  have hreleased : d ∉ (s.graph journal (.search t (f :: path))).released := by
    rw [h.searching.alone.released]
    exact List.not_mem_nil
  exact h.searching.awaited_complete (h.searching.balanced _ (.inl h.head) hdoom) hp
    ((h.searching.shaped _).opened h.head).1 hdoom hd hreleased

theorem startable (h : s.Visiting journal owner reserved o t (f :: path))
    (hp : (s.cyclic f.module).pending = some 0) (hstarts : (journal s.host).starts f.module = 0)
    (hturn : (s.cyclic f.module).order.isTurn → (s.cyclic f.module).hasAwait) :
    (s.graph journal (.search t (f :: path))).Startable f.module where
  awake := h.head_awake
  starts := hstarts
  awaited := h.awaited hp
  turn ho _ := ⟨hp, .inl (hturn ho)⟩
  ready := by
    rw [h.searching.alone.ready]
    exact List.not_mem_nil

theorem prepared (h : s.Visiting journal owner reserved o t (f :: path)) (htodo : f.todo = [])
    (hp : (s.cyclic f.module).pending = some 0) (hm : s.isCyclic f.module) :
    s.Prepared (journal s.host) f.module :=
  prepared_of_provided h.searching.toSound hm (h.searching.provided rfl htodo (h.awaited hp))

/-- All requests of the module being visited are handled. -/
theorem left (h : s.Visiting journal owner reserved o t (⟨m, asked, [], false⟩ :: path))
    (hdone : (s.cyclic m).order = .unset →
      (journal s.host).starts m = 1 ∧ Entry.ended m ∈ journal s.host) :
    (s.graph journal (.search t (⟨m, asked, [], false⟩ :: path))).Left m := by
  refine ⟨hdone, fun r hr => ?_⟩
  have hf := h.searching.frames _ frame_mem
  rw [hf.requested, List.append_nil] at hr
  exact hf.handled r hr

theorem order_takeTurn
    (h : s.Visiting journal owner reserved o t (⟨m, asked, todo, true⟩ :: path)) :
    ((s.takeTurn m).cyclic m).order ≠ .unset := by
  rw [fields_takeTurn h.head_awake, Function.update_self]
  exact fun e => nomatch e

theorem wait (h : s.Visiting journal owner reserved o t (⟨m, asked, [], true⟩ :: path))
    (hp : (s.cyclic m).pending ≠ some 0) :
    (s.takeTurn m).Visiting journal owner reserved o t (⟨m, asked, [], false⟩ :: path) ∧
      ((s.takeTurn m).graph journal (.search t (⟨m, asked, [], false⟩ :: path))).Left m :=
  have h₁ := h.takeTurn (fun e => (hp e).elim) (fun _ _ => .rfl) fun e => (hp e).elim
  ⟨h₁, h₁.left fun hu => (h.order_takeTurn hu).elim⟩

/-- The module being visited waits for nothing, and its body may wait. -/
theorem runAsync (hc : Conduct journal owner reserved hosts) (hh : host ∈ hosts)
    (h : s.Visiting journal owner reserved o t (⟨m, asked, [], true⟩ :: path))
    (ho : o.excused = [])
    (hp : (s.cyclic m).pending = some 0) (hawait : (s.cyclic m).hasAwait)
    (hrun : startAsyncBody host m (s.takeTurn m) = some ((), s')) :
    s.Notes journal s' ∧
      s'.Visiting journal owner reserved o t (⟨m, asked, [], false⟩ :: path) ∧
      (s'.graph journal (.search t (⟨m, asked, [], false⟩ :: path))).Left m := by
  have hfields := fields_takeTurn h.head_awake
  have h₁ : (s.takeTurn m).Visiting journal owner reserved { o with excused := m :: o.excused } t
      (⟨m, asked, [], false⟩ :: path) :=
    h.takeTurn (fun _ => hawait) (fun _ hx => List.mem_cons.trans (or_iff_right hx))
      fun _ => List.mem_cons_self ..
  have hp₁ : ((s.takeTurn m).cyclic m).pending = some 0 := by
    rw [hfields, Function.update_self, hp]
  have hm₁ := h₁.startable hp₁ h.fresh.2 fun _ => by
    rw [hfields, Function.update_self]
    exact hawait
  have htell : (s.takeTurn m).MayTell o.excused m := by
    refine ⟨⟨isCyclic_of_awake h₁.head_awake, h.order_takeTurn, fun _ _ => hp₁⟩, fun hd => ?_, ?_⟩
    · rw [hfields, Function.update_self] at hd
      cases hd
    · rw [ho]
      exact List.not_mem_nil
  obtain ⟨hcoh, hran⟩ := startAsyncBody_body hc hh h₁.coherent h₁.idle.linked
    h₁.searching.toSound hm₁ (fun hcyc => h₁.prepared rfl hp₁ hcyc)
    htell h₁.idle.busy hrun
  have h₂ := h₁.ran rfl hran hm₁ hcoh
  refine ⟨fun e => hran.noted, h₂, h₂.left fun hu => ?_⟩
  obtain ⟨a, c, e⟩ := hran.fields (x := m) h₁.head_awake
  rw [show s'.cyclic m = _ from e] at hu
  exact (h.order_takeTurn hu).elim

/-- The module being visited waits for nothing, and neither does its body. -/
theorem runSync (hc : Conduct journal owner reserved hosts) (hh : host ∈ hosts)
    (h : s.Visiting journal owner reserved o t (⟨m, asked, [], true⟩ :: path))
    (hp : (s.cyclic m).pending = some 0) (hawait : (s.cyclic m).hasAwait = false)
    (hrun : runSyncBody host m s = some (result, s')) :
    s.Notes journal s' ∧
      s'.Visiting journal owner reserved o t (⟨m, asked, [], false⟩ :: path) ∧
      (result = .ok () →
        (s'.graph journal (.search t (⟨m, asked, [], false⟩ :: path))).Left m) ∧
      ∀ e, result = .error e → s'.Throws journal m e := by
  obtain ⟨ho, hstarts⟩ := h.fresh
  have h₁ := h.reframe
  have hm₁ := h₁.startable hp hstarts fun e => by
    rw [ho] at e
    cases e
  obtain ⟨hcoh, hran, hok, hthrew⟩ := runSyncBody_body hc hh h₁.coherent h₁.idle.linked
    h₁.searching.toSound hm₁ (fun hcyc => h₁.prepared rfl hp hcyc) hawait hrun
  have h₂ := h₁.ran rfl hran hm₁ hcoh
  refine ⟨fun e => hran.noted, h₂, fun hr => h₂.left fun _ => ⟨?_, (hok hr).2⟩, hthrew⟩
  rw [(hok hr).1, hstarts]

/-- The module being visited has run or got its turn, or its body has thrown. -/
theorem runOrWait_ends (hc : Conduct journal owner reserved hosts) (hh : host ∈ hosts)
    (ho : o.excused = []) (h : s.Visiting journal owner reserved o t (⟨m, asked, [], true⟩ :: path))
    (hrun : runOrWait host m t s = some ((result, t'), s')) :
    t' = t ∧ s.Notes journal s' ∧
      s'.Visiting journal owner reserved o t (⟨m, asked, [], false⟩ :: path) ∧
      (result = .ok () →
        (s'.graph journal (.search t (⟨m, asked, [], false⟩ :: path))).Left m) ∧
      ∀ e, result = .error e → s'.Throws journal m e := by
  have hdoom : m ∉ (s.graph journal (.search t (⟨m, asked, [], true⟩ :: path))).doom := by
    rw [h.searching.alone.doom]
    exact List.not_mem_nil
  obtain ⟨k, hk, -⟩ := h.searching.balanced m (.inl h.head) hdoom
  have hk : (s.cyclic m).pending = some k := hk
  rw [runOrWait, EvalVisit.view_bind, hk, Option.getD_some] at hrun
  split at hrun
  · rename_i hw
    rw [EvalVisit.update_bind] at hrun
    split at hrun
    · rename_i hk0
      subst hk0
      obtain ⟨rfl, u, rfl, hbody⟩ := EvalVisit.ofRun_eq_some.1 hrun
      obtain ⟨hnotes, hs', hleft⟩ := h.runAsync hc hh ho hk (by simpa using hw) hbody
      exact ⟨rfl, hnotes, hs', fun _ => hleft, fun _ he => nomatch he⟩
    · rename_i hk0
      cases hrun
      obtain ⟨hs', hleft⟩ := h.wait fun e => hk0 (Option.some.inj (hk.symm.trans e))
      exact ⟨rfl, .of_host rfl, hs', fun _ => hleft, fun _ he => nomatch he⟩
  · rename_i hw
    obtain ⟨rfl, hbody⟩ := EvalVisit.ofAct_eq_some.1 hrun
    obtain ⟨hk0, hawait⟩ : k = 0 ∧ (s.cyclic m).hasAwait = false := by
      simpa using hw
    subst hk0
    exact ⟨rfl, h.runSync hc hh hk hawait hbody⟩

/-- Whether the module being visited is the root of its cycle. -/
theorem isRoot_iff (h : s.Visiting journal owner reserved o t (f :: path)) :
    (s.cyclic f.module).isRoot ↔ (s.graph journal (.search t (f :: path))).lowOf f.module =
      (s.graph journal (.search t (f :: path))).visitOf f.module := by
  obtain ⟨hv, ha⟩ := h.searching.marked f.module ((h.open_iff _).1 h.head)
  obtain ⟨i, hi⟩ := Option.isSome_iff_exists.1 hv
  obtain ⟨j, hj⟩ := Option.isSome_iff_exists.1 ha
  rw [Cyclic.isRoot, Graph.lowOf, Graph.visitOf, hi, hj,
    show (s.cyclic f.module).visit = some i from hi,
    show (s.cyclic f.module).ancestor = some j from hj]
  simp

end Visiting

/-- What a visit that returned has come to: the module is an evaluated leaf, or open, or its cycle
is closed; or it was visited for the first time and is left open. -/
inductive Arrived (journal : σ → Journal) (owner : κ → ModuleId) (reserved : Set PromiseId)
    (o : Focus) (path : List Frame) (n : ModuleId) (t : Traversal) (s : Machine σ κ) : Prop
  | leaf : s.Visiting journal owner reserved o t path → s.isCyclic n = false → s.LeafDone n →
      Arrived journal owner reserved o path n t s
  | opened : s.Visiting journal owner reserved o t path → (s.cyclic n).status = .evaluating →
      Arrived journal owner reserved o path n t s
  | closed : s.Visiting journal owner reserved o t path →
      (s.cyclic n).status = .evaluatingAsync ∨ (s.cyclic n).status = .evaluated →
        (s.cyclic n).error = none → Arrived journal owner reserved o path n t s
  | left {requested : List String} :
      s.Visiting journal owner reserved o t (⟨n, requested, [], false⟩ :: path) →
        (s.graph journal (.search t (⟨n, requested, [], false⟩ :: path))).Left n →
        (s.graph journal (.search t (⟨n, requested, [], false⟩ :: path))).lowOf n <
          (s.graph journal (.search t (⟨n, requested, [], false⟩ :: path))).visitOf n →
        Arrived journal owner reserved o path n t s

/-- A module that `m` requests, directly or not, has thrown the value. -/
def Blames (journal : σ → Journal) (s : Machine σ κ) (m : ModuleId) (e : Value) : Prop :=
  (s.graph journal .rest).Blames m e

theorem Throws.blames {e : Value} (h : s.Throws journal m e) : s.Blames journal m e :=
  ⟨m, .refl, h⟩

/-- A module blames what a module that it requests does. -/
theorem Blames.of_path {e : Value} (hn : s.Blames journal n e)
    (hedge : ∀ f ∈ path.head?, (s.graph journal (.search t path)).Requests f.module n) :
      ∀ f ∈ path.head?, s.Blames journal f.module e :=
  fun f hf => hn.of_reach (.single (hedge f hf))

/-- A visit that threw: the search stands where it was then, and the module being visited blames
what was thrown. -/
def Thrown (journal : σ → Journal) (owner : κ → ModuleId) (reserved : Set PromiseId) (o : Focus)
    (path : List Frame) (e : Value) (t : Traversal) (s : Machine σ κ) : Prop :=
  ∃ above, s.Visiting journal owner reserved o t (above ++ path) ∧
    ∀ f ∈ (above ++ path).head?, s.Blames journal f.module e

variable {e : Value}

theorem Visiting.thrown (h : s.Visiting journal owner reserved o t path)
    (he : ∀ f ∈ path.head?, s.Blames journal f.module e) :
    s.Thrown journal owner reserved o path e t := ⟨[], h, he⟩

theorem Thrown.of_cons (h : s.Thrown journal owner reserved o (f :: path) e t) :
    s.Thrown journal owner reserved o path e t := by
  obtain ⟨above, h, he⟩ := h
  rw [List.append_cons] at h he
  exact ⟨above ++ [f], h, he⟩

theorem Thrown.mem_stack (h : s.Thrown journal owner reserved o (f :: path) e t) :
    f.module ∈ t.stack := by
  obtain ⟨above, h, -⟩ := h
  exact h.searching.mem_stack (List.mem_append_right _ (List.mem_cons_self ..))

/-- The module being visited is left; its cycle is closed if it is the root. -/
theorem Visiting.closeEvaluation_ends
    (h : s.Visiting journal owner reserved o t (⟨m, asked, [], false⟩ :: path))
    (hleft : (s.graph journal (.search t (⟨m, asked, [], false⟩ :: path))).Left m)
    (hrun : closeEvaluation m t s = some ((result, t'), s')) :
    result = .ok () ∧ s.Notes journal s' ∧ s'.Arrived journal owner reserved o path m t' := by
  have hs := h.searching.search
  have hm : m ∈ t.stack := (h.open_iff m).1 h.head
  rw [closeEvaluation, EvalVisit.view_bind] at hrun
  split at hrun
  · rename_i hroot
    obtain ⟨pre, post, hstack⟩ := List.append_of_mem hm
    have hr : (s.graph journal (.search t (⟨m, asked, [], false⟩ :: path))).Root
        ⟨m, asked, [], false⟩ path pre post :=
      ⟨rfl, hstack, h.isRoot_iff.1 hroot, hleft⟩
    have hpre : m ∉ pre := fun hp =>
      (List.nodup_append.1 (hr.search h.searching).nodup).2.2 m hp m (List.mem_cons_self ..) rfl
    have hclose := t.close_of_stack hstack hpre
    have hrun' : some ((Except.ok (), (t.close m).2), (t.close m).1.foldl
        (fun s x => s.updateCyclic x (Cyclic.close m)) s) = some ((result, t'), s') := hrun
    rw [hclose] at hrun'
    cases hrun'
    have hclosed := h.close hr
    have hawake : ¬(s.cyclic m).status.IsIdle := h.head_awake
    have hopen := (h.searching.shaped m).opened h.head
    have hfields : ((pre ++ [m]).foldl (fun s x => s.updateCyclic x (Cyclic.close m)) s).cyclic m =
        if m ∈ pre ++ [m] then (s.cyclic m).close m else s.cyclic m :=
      fields_foldl_updateCyclic (Cyclic.close m) ?_ ?_ m
    · rw [if_pos (List.mem_append_right _ (List.mem_singleton_self _))] at hfields
      refine ⟨rfl, .of_host (host_foldl_updateKind _ _), .closed hclosed ?_ ?_⟩ <;> rw [hfields]
      · obtain ⟨e, -⟩ | ⟨e, -⟩ := Graph.status_close_of_open (m := m) h.searching.toSound hm
        · exact .inr e
        · exact .inl e
      · exact hopen.1
    · have := (hr.search h.searching).nodup
      rw [List.append_cons] at this
      exact (List.nodup_append.1 this).1
    · intro x hx
      have hi : ¬(s.cyclic x).status.IsIdle :=
        Status.awake_of_evaluating ((h.open_iff x).2 (hr.mem_stack hx))
      exact ⟨has_of_awake hi, isCyclic_of_awake hi⟩
  · rename_i hroot
    cases hrun
    refine ⟨rfl, .of_host rfl,
      .left h hleft (Nat.lt_of_le_of_ne (hs.low_le m hm) fun e => hroot ?_)⟩
    exact h.isRoot_iff.2 e

/-! ## Requests -/

theorem Arrived.leafDone (h : s.Arrived journal owner reserved o path n t)
    (hn : s.isCyclic n = false) :
    s.Visiting journal owner reserved o t path ∧ s.LeafDone n := by
  have hblank := cyclic_of_not_isCyclic hn
  cases h with
  | leaf h _ hl => exact ⟨h, hl⟩
  | opened _ ho =>
    rw [hblank] at ho
    cases ho
  | closed _ ho _ =>
    rw [hblank] at ho
    obtain ho | ho := ho <;> cases ho
  | left h _ _ =>
    have ho := h.head
    rw [hblank] at ho
    cases ho

/-- A visit that did not leave its module open has closed the cycle of the module. -/
theorem Arrived.rooted (h : s.Arrived journal owner reserved o path n t) (hn : s.isCyclic n)
    (hclosed : (s.cyclic n).status ≠ .evaluating) :
    s.Visiting journal owner reserved o t path ∧ (s.cyclic n).root ≠ none := by
  cases h with
  | leaf _ hl _ => rw [hl] at hn; cases hn
  | opened _ ho => exact (hclosed ho).elim
  | left h _ _ => exact (hclosed h.head).elim
  | closed h ho he =>
    refine ⟨h, ?_⟩
    obtain ho | ho := ho
    · exact ((h.searching.shaped n).waiting ho).2.1
    · exact ((h.searching.shaped n).complete ho he).1

/-- A requested module that is open joins its cycle to that of the module being visited. -/
theorem Arrived.meet
    (h : s.Arrived journal owner reserved o (⟨m, asked, r :: todo, true⟩ :: path) n t)
    (hn : Entry.resolved m r n ∈ journal s.host) (hr : r ∈ (s.cyclic m).requested)
    (hcyclic : s.isCyclic n) (hopen : (s.cyclic n).status = .evaluating) :
    (Visiting.meet s m n).Visiting journal owner reserved o t
      (⟨m, asked ++ [r], todo, true⟩ :: path) := by
  cases h with
  | leaf _ hl _ => rw [hl] at hcyclic; cases hcyclic
  | opened h _ => exact h.advance_open hn hr hopen
  | closed _ ho _ =>
    rw [hopen] at ho
    obtain ho | ho := ho <;> cases ho
  | left h hleft hlow => exact h.advance_left hn hleft hlow

/-- What a request has led to is taken account of, unless the cycle that it led to has failed. -/
theorem afterRequest_ends (hn : Entry.resolved m r n ∈ journal s.host)
    (hr : r ∈ (s.cyclic m).requested)
    (h : s.Arrived journal owner reserved o (⟨m, asked, r :: todo, true⟩ :: path) n t)
    (hrun : afterRequest m n t s = some ((result, t'), s')) :
    (result = .ok () ∧ s.Notes journal s' ∧
        s'.Visiting journal owner reserved o t' (⟨m, asked ++ [r], todo, true⟩ :: path)) ∨
      ∃ e, result = .error e ∧
        s'.Thrown journal owner reserved o (⟨m, asked, r :: todo, true⟩ :: path) e t' := by
  rw [afterRequest, EvalVisit.view_bind] at hrun
  cases hc : s.cyclic? n with
  | none =>
    rw [hc] at hrun
    cases hrun
    obtain ⟨hs, hl⟩ := h.leafDone (by rw [isCyclic, hc]; rfl)
    exact .inl ⟨rfl, .of_host rfl, hs.advance_leaf hn hl⟩
  | some c =>
    have hcyclic : s.isCyclic n := by rw [isCyclic, hc]; rfl
    have hfields : s.cyclic n = c := cyclic_of_cyclic? hc
    rw [hc] at hrun
    dsimp only at hrun
    subst hfields
    split at hrun
    · rename_i hopen
      cases hrun
      exact .inl ⟨rfl, .of_host (refields_await _ m n).host, h.meet hn hr hcyclic hopen⟩
    · rename_i hclosed
      obtain ⟨hs, hroot⟩ := h.rooted hcyclic hclosed
      obtain ⟨d, hd⟩ := Option.ne_none_iff_exists'.1 hroot
      rw [EvalVisit.view_bind, cycleRoot_eq, hd, Option.getD_some, EvalVisit.view_bind] at hrun
      cases he : (s.cyclic d).error with
      | none =>
        rw [he] at hrun
        cases hrun
        exact .inl ⟨rfl, .of_host (refields_await s m d).host, hs.advance_closed hn hr hd he⟩
      | some e =>
        rw [he] at hrun
        cases hrun
        have hreach := Relation.ReflTransGen.head ⟨r, hr, hn⟩ (hs.searching.member n d hd).up
        refine .inr ⟨e, rfl, hs.thrown fun f hf => ?_⟩
        cases hf
        exact ((hs.searching.shaped d).blamed e he).of_reach hreach

def requestEvaluation (host : Host σ κ) (depth : Nat) (m : ModuleId) (request : String) :
    EvalVisit σ κ Unit := do
  let required ← EvalVisit.ofAct (host.resolve (.module m) request)
  visitEvaluation host depth required
  afterRequest m required

def EvaluationEnds (journal : σ → Journal) (owner : κ → ModuleId) (reserved : Set PromiseId)
    (o : Focus) (path : List Frame) (n : ModuleId) (s : Machine σ κ) (result : Except Value Unit)
    (t : Traversal)
    (s' : Machine σ κ) : Prop :=
  match result with
  | .ok () => s.Notes journal s' ∧ s'.Arrived journal owner reserved o path n t
  | .error e => s'.Thrown journal owner reserved o path e t ∧ (n ∈ t.stack ∨ s.isCyclic n = false ∨
      (s'.cyclic n).status = .evaluated ∧ (s'.cyclic n).error = some e)

def VisitsEnd (journal : σ → Journal) (owner : κ → ModuleId) (reserved : Set PromiseId)
    (host : Host σ κ) (o : Focus) (depth : Nat) : Prop :=
  ∀ (n : ModuleId) (path : List Frame) (t t' : Traversal) (s s' : Machine σ κ)
    (result : Except Value Unit), s.Visiting journal owner reserved o t path → s.Has n →
    (∀ f ∈ path.head?, (s.graph journal (.search t path)).Requests f.module n) →
    ((journal s.host).Stable → (s.status n).IsLinked) →
    (∀ x, o.IsLate x → (s.cyclic x).status.IsIdle → x = n) →
    visitEvaluation host depth n t s = some ((result, t'), s') →
      s.EvaluationEnds journal owner reserved o path n result t' s'

structure Visitable (journal : σ → Journal) (owner : κ → ModuleId) (reserved : Set PromiseId)
    (o : Focus) (path : List Frame) (n : ModuleId) (t : Traversal) (s : Machine σ κ) : Prop where
  visiting : s.Visiting journal owner reserved o t path
  has : s.Has n
  edge : ∀ f ∈ path.head?, (s.graph journal (.search t path)).Requests f.module n
  linked : (journal s.host).Stable → (s.status n).IsLinked
  late : ∀ x, o.IsLate x → (s.cyclic x).status.IsIdle → x = n

/-- A request of a module of the path is one of the module's. -/
theorem Visiting.mem_requested (h : s.Visiting journal owner reserved o t path)
    (hf : (⟨m, asked, r :: todo, true⟩ : Frame) ∈ path) : r ∈ (s.cyclic m).requested := by
  have hreq := (h.searching.frames _ hf).requested
  rw [show (s.cyclic m).requested = _ from hreq]
  exact List.mem_append_right _ (List.mem_cons_self ..)

/-- The host was asked for the next request of the module being visited. -/
theorem Visiting.resolved (hc : Conduct journal owner reserved hosts) (hh : host ∈ hosts)
    (h : s.Visiting journal owner reserved o t (⟨m, asked, r :: todo, true⟩ :: path))
    {a : Except Value ModuleId} (hr : host.resolve (.module m) r s = some (a, s')) :
    s.Quiet journal s' ∧
      s'.Visiting journal owner reserved o t (⟨m, asked, r :: todo, true⟩ :: path) := by
  have hcalls := hc.resolve host hh _ _ _ _ _ hr
  have hq := quiet_of_calls hc.track hcalls
  exact ⟨hq, h.calm (hq.calm h.searching.toSound) (h.coherent.calls hc.track hcalls)⟩

/-- What the host gives for the next request may be visited. -/
theorem Visiting.found (hc : Conduct journal owner reserved hosts) (hh : host ∈ hosts)
    (h : s.Visiting journal owner reserved o t (⟨m, asked, r :: todo, true⟩ :: path))
    (hr : host.resolve (.module m) r s = some (.ok n, s')) :
    s'.Visitable journal owner reserved o (⟨m, asked, r :: todo, true⟩ :: path) n t ∧
      Entry.resolved m r n ∈ journal s'.host := by
  obtain ⟨hn, hfound⟩ := hc.found host hh hr
  have hnoted := hfound m rfl
  have hs' := (h.resolved hc hh hr).2
  have hmem := hs'.mem_requested (List.mem_cons_self ..)
  refine ⟨⟨hs', hn, fun f hf => ?_, fun hstable => ?_,
    fun x hl hi => (hs'.awake_of_late hl hi).elim⟩, hnoted⟩
  · cases hf
    exact ⟨r, hmem, hnoted⟩
  · exact (hs'.coherent.linked hs'.idle.linked hstable).linked hstable
      (isLinked_of_awake hs'.head_awake) (requested_eq s' m ▸ hmem) hnoted

variable {depth : Nat}

/-- One request, when the visits of a smaller depth end as they should. -/
theorem requestEvaluation_ends (hc : Conduct journal owner reserved hosts) (hh : host ∈ hosts)
    (ih : VisitsEnd journal owner reserved host o depth)
    (h : s.Visiting journal owner reserved o t (⟨m, asked, r :: todo, true⟩ :: path))
    (hrun : requestEvaluation host depth m r t s = some ((result, t'), s')) :
    (result = .ok () ∧ s.Notes journal s' ∧
        s'.Visiting journal owner reserved o t' (⟨m, asked ++ [r], todo, true⟩ :: path)) ∨
      ∃ e, result = .error e ∧
        s'.Thrown journal owner reserved o (⟨m, asked, r :: todo, true⟩ :: path) e t' := by
  rw [requestEvaluation, visit_bind] at hrun
  obtain ⟨n, t₁, s₁, h₁, h₂⟩ | ⟨e, h₁, rfl⟩ := hrun
  · obtain ⟨rfl, hr⟩ := EvalVisit.ofAct_eq_some.1 h₁
    have hq := (h.resolved hc hh hr).1
    obtain ⟨hn, hnoted⟩ := h.found hc hh hr
    have hv := fun result t₂ s₂ h₃ => ih n _ t₁ t₂ s₁ s₂ result hn.visiting hn.has hn.edge
      hn.linked hn.late h₃
    obtain ⟨u, t₂, s₂, h₃, h₄⟩ | ⟨e, h₃, rfl⟩ := visit_bind.1 h₂
    · obtain ⟨hnotes, hvisited⟩ := hv (.ok u) t₂ s₂ h₃
      have hmem₂ : r ∈ (s₂.cyclic m).requested := by
        cases hvisited with
        | leaf h _ _ => exact h.mem_requested (List.mem_cons_self ..)
        | opened h _ => exact h.mem_requested (List.mem_cons_self ..)
        | closed h _ _ => exact h.mem_requested (List.mem_cons_self ..)
        | left h _ _ => exact h.mem_requested (List.mem_cons_of_mem _ (List.mem_cons_self ..))
      refine (afterRequest_ends (hnotes _ hnoted) hmem₂ hvisited h₄).imp ?_ id
      rintro ⟨hok, hnotes', hs'⟩
      exact ⟨hok, fun e he => hnotes' e (hnotes e (hq.mem_journal he)), hs'⟩
    · exact .inr ⟨e, rfl, (hv (.error e) t' s' h₃).1⟩
  · obtain ⟨rfl, hr⟩ := EvalVisit.ofAct_eq_some.1 h₁
    refine .inr ⟨e, rfl, (h.resolved hc hh hr).2.thrown fun f hf => ?_⟩
    cases hf
    exact Throws.blames fun _ => .inr (.inl ⟨r, hc.refused host hh hr⟩)

theorem requestsEvaluation_ends (hc : Conduct journal owner reserved hosts) (hh : host ∈ hosts)
    (ih : VisitsEnd journal owner reserved host o depth) (rest : List String) :
    ∀ asked s t, s.Visiting journal owner reserved o t (⟨m, asked, rest, true⟩ :: path) →
      (rest.forM (requestEvaluation host depth m)) t s = some ((result, t'), s') →
        (result = .ok () ∧ s.Notes journal s' ∧
          s'.Visiting journal owner reserved o t' (⟨m, asked ++ rest, [], true⟩ :: path)) ∨
        ∃ e, result = .error e ∧
          ∃ f : Frame, f.module = m ∧ s'.Thrown journal owner reserved o (f :: path) e t' := by
  induction rest with
  | nil =>
    intro asked s t h hrun
    cases hrun
    exact .inl ⟨rfl, .of_host rfl, by rwa [List.append_nil]⟩
  | cons r rest ihr =>
    intro asked s t h hrun
    obtain ⟨t₁, s₁, h₁, h₂⟩ | ⟨e, h₁, rfl⟩ := visit_forM_cons.1 hrun
    · obtain ⟨-, hnotes, hs₁⟩ | ⟨e, he, -⟩ := requestEvaluation_ends hc hh ih h h₁
      · rw [List.append_cons]
        refine (ihr _ _ _ hs₁ h₂).imp ?_ id
        rintro ⟨hok, hnotes', hs'⟩
        exact ⟨hok, hnotes.trans hnotes', hs'⟩
      · cases he
    · obtain ⟨he, -⟩ | ⟨e', he, hthrown⟩ := requestEvaluation_ends hc hh ih h h₁
      · cases he
      · exact .inr ⟨e', he, _, rfl, hthrown⟩

theorem firstVisit_ends (hc : Conduct journal owner reserved hosts) (hh : host ∈ hosts)
    (ho : o.excused = []) (ih : VisitsEnd journal owner reserved host o depth)
    (h : s.Visiting journal owner reserved o t path) (hm : (s.cyclic m).status.IsIdle)
    (hhas : s.Has m) (hcyclic : s.isCyclic m)
    (hedge : ∀ f ∈ path.head?, (s.graph journal (.search t path)).Requests f.module m)
    (hlinked : (journal s.host).Stable → (s.status m).IsLinked)
    (hlate : ∀ x, o.IsLate x → (s.cyclic x).status.IsIdle → x = m)
    (hrun : (do
      openEvaluation m
      (s.cyclic m).requested.forM (requestEvaluation host depth m)
      runOrWait host m
      closeEvaluation m : EvalVisit σ κ Unit) t s = some ((result, t'), s')) :
    s.EvaluationEnds journal owner reserved o path m result t' s' := by
  have hopen := h.enter hm hhas hcyclic hedge hlinked hlate
  have hthrown : ∀ {f : Frame} {e s₂ t₂}, f.module = m →
      s₂.Thrown journal owner reserved o (f :: path) e t₂ →
        s.EvaluationEnds journal owner reserved o path m (.error e) t₂ s₂ := fun hf ht =>
    ⟨ht.of_cons, .inl (hf ▸ ht.mem_stack)⟩
  obtain ⟨u, t₁, s₁, h₁, h₂⟩ | ⟨e, h₁, rfl⟩ := visit_bind.1 hrun
  · cases h₁
    obtain ⟨u, t₂, s₂, h₃, h₄⟩ | ⟨e, h₃, rfl⟩ := visit_bind.1 h₂
    · obtain ⟨-, hnotes, hs₂⟩ | ⟨e, he, -⟩ := requestsEvaluation_ends hc hh ih _ _ _ _ hopen h₃
      · obtain ⟨u, t₃, s₃, h₅, h₆⟩ | ⟨e, h₅, rfl⟩ := visit_bind.1 h₄
        · obtain ⟨rfl, hnotes', hs₃, hleft, -⟩ := hs₂.runOrWait_ends hc hh ho h₅
          obtain ⟨rfl, hnotes'', hv⟩ := hs₃.closeEvaluation_ends (hleft rfl) h₆
          exact ⟨hnotes.trans (hnotes'.trans hnotes''), hv⟩
        · obtain ⟨rfl, -, hs₃, -, hthrew⟩ := hs₂.runOrWait_ends hc hh ho h₅
          refine hthrown rfl (hs₃.thrown fun f hf => ?_)
          cases hf
          exact (hthrew e rfl).blames
      · cases he
    · obtain ⟨he, -⟩ | ⟨e', he, f, hf, ht⟩ := requestsEvaluation_ends hc hh ih _ _ _ _ hopen h₃
      · cases he
      · cases he
        exact hthrown hf ht
  · cases h₁

theorem requireLeaf_ends (hc : Conduct journal owner reserved hosts) (hh : host ∈ hosts)
    (h : s.Visiting journal owner reserved o t path) (hleaf : s.isCyclic n = false)
    (hedge : ∀ f ∈ path.head?, (s.graph journal (.search t path)).Requests f.module n)
    (hlinked : (journal s.host).Stable → (s.status n).IsLinked)
    (hrun : requireLeaf host n s = some (result, s')) :
    s.EvaluationEnds journal owner reserved o path n result t s' := by
  obtain ⟨hcoh, hcalm, hdone, hthrew⟩ :=
    requireLeaf_visit hc hh h.coherent h.idle.leaf h.searching.toSound hleaf hrun
  have hs' := h.calm hcalm hcoh
  cases result with
  | ok u => exact ⟨hcalm.noted, .leaf hs' (not_isCyclic_of_leafDone (hdone rfl)) (hdone rfl)⟩
  | error e =>
    have hthrown := hthrew (fun hstable => hlinked (Notes.stable hcalm.noted hstable)) e rfl
    have hedge' := fun f hf => (hcalm.grows h.searching.toSound).requests f.module n (hedge f hf)
    exact ⟨hs'.thrown (hthrown.blames.of_path hedge'), .inr (.inl hleaf)⟩

/-- A module whose cycle is closed is not visited again; it throws what it has failed with. -/
theorem Visiting.closed_ends (h : s.Visiting journal owner reserved o t path)
    (hn : (s.cyclic n).status = .evaluatingAsync ∨ (s.cyclic n).status = .evaluated)
    (hedge : ∀ f ∈ path.head?, (s.graph journal (.search t path)).Requests f.module n)
    (hrun : (match (s.cyclic n).error with
      | some e => throw e
      | none => pure () : EvalVisit σ κ Unit) t s = some ((result, t'), s')) :
    s.EvaluationEnds journal owner reserved o path n result t' s' := by
  cases he : (s.cyclic n).error with
  | none =>
    rw [he] at hrun
    cases hrun
    exact ⟨.of_host rfl, .closed h hn he⟩
  | some e =>
    rw [he] at hrun
    cases hrun
    have hblames : s.Blames journal n e := (h.searching.shaped n).blamed e he
    have hdone := hn.resolve_left fun hn => by
      have hnone : (s.cyclic n).error = none := ((h.searching.shaped n).waiting hn).1
      rw [hnone] at he
      cases he
    exact ⟨h.thrown (hblames.of_path hedge), .inr (.inr ⟨hdone, he⟩)⟩

/-- Each visit ends as it should. -/
theorem visitEvaluation_ends (hc : Conduct journal owner reserved hosts) (hh : host ∈ hosts)
    (ho : o.excused = []) (depth : Nat) : VisitsEnd journal owner reserved host o depth := by
  induction depth with
  | zero =>
    intro n path t t' s s' result h _ _ _ _ hrun
    obtain ⟨-, a, -, hrun⟩ := EvalVisit.ofRun_eq_some.1 hrun
    cases hrun
  | succ depth ih =>
    intro n path t t' s s' result h hhas hedge hlinked hlate hrun
    rw [visitEvaluation, EvalVisit.view_bind] at hrun
    cases hcyc : s.cyclic? n with
    | none =>
      rw [hcyc] at hrun
      obtain ⟨rfl, hleafrun⟩ := EvalVisit.ofAct_eq_some.1 hrun
      have hleaf : s.isCyclic n = false := by rw [isCyclic, hcyc]; rfl
      exact requireLeaf_ends hc hh h hleaf hedge hlinked hleafrun
    | some c =>
      have hfields : s.cyclic n = c := cyclic_of_cyclic? hcyc
      have hcyclic : s.isCyclic n := by rw [isCyclic, hcyc]; rfl
      rw [hcyc] at hrun
      dsimp only at hrun
      subst hfields
      cases hst : (s.cyclic n).status with
      | unlinked | linking | linked =>
        rw [hst] at hrun
        have hidle : (s.cyclic n).status.IsIdle := by rw [hst]; trivial
        exact firstVisit_ends hc hh ho ih h hidle hhas hcyclic hedge hlinked hlate hrun
      | evaluating =>
        rw [hst] at hrun
        cases hrun
        exact ⟨.of_host rfl, .opened h hst⟩
      | evaluatingAsync =>
        rw [hst] at hrun
        exact h.closed_ends (.inl hst) hedge hrun
      | evaluated =>
        rw [hst] at hrun
        exact h.closed_ends (.inr hst) hedge hrun

end Machine

end ModuleGraph

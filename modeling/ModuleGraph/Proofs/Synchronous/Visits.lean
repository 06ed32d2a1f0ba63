import ModuleGraph.Proofs.Synchronous.Leaves

/-! # Visits of synchronous modules

A module without top-level await that waits for nothing runs as soon as its requests are handled,
and it never gets a turn. So the times, stages and cycles that an evaluation keeps track of have no
effect on the order in which such modules run: each visit is a piece of a plain walk. -/

namespace ModuleGraph

open Relation

variable {σ κ : Type} {journal : σ → Journal} {owner : κ → ModuleId} {reserved : Set PromiseId}
variable {hosts : Set (Host σ κ)} {host : Host σ κ}

namespace Machine

variable {b s s' s'' : Machine σ κ} {o : Focus} {m n d x : ModuleId} {p : PromiseId}
variable {t t' : Traversal} {path : List Frame} {f : Frame} {R : ModuleId → Prop}
variable {J : Journal} {seen : List ModuleId} {result : Except Value Unit}
variable {asked todo : List String}
variable {request : String} {depth : Nat}

/-! ## What a visit notes -/

theorem Visiting.recall (h : s.Visiting journal owner reserved o t path) :
    s.Visiting journal owner reserved { o with known := s.Shows journal } t path := by
  obtain ⟨hs, hc, hidle, hlowest, hunopened⟩ := h
  refine ⟨hs, ⟨hc.wired, hc.leaves, hc.visited, hc.linked, hc.capable, hc.distinct, hc.own,
    hc.unasked, hc.late, fun _ => id, fun m c hm hres => ?_, hc.noted, hc.logged⟩,
    ⟨hidle.busy, hidle.leaf, hidle.linked⟩, hlowest, hunopened⟩
  exact (hc.tells m c hm hres).quiet rfl Iff.rfl (fun _ hv => hv) id

/-- Whatever was thrown, the journal has kept what was known before. -/
theorem Thrown.notes {b : Machine σ κ} {e : Value} (h : s'.Thrown journal owner reserved
    { o with known := b.Shows journal } path e t) : b.Notes journal s' := by
  obtain ⟨above, h, -⟩ := h
  exact fun e he => h.coherent.known (.noted e) he

/-- A visit adds to the journal, whether it throws or not. -/
theorem Visitable.notes (hc : Conduct journal owner reserved hosts) (hh : host ∈ hosts)
    (ho : o.excused = []) (h : s.Visitable journal owner reserved o path n t)
    (hrun : visitEvaluation host depth n t s = some ((result, t'), s')) : s.Notes journal s' := by
  have hends : VisitsEnd journal owner reserved host { o with known := s.Shows journal } depth :=
    visitEvaluation_ends (o := { o with known := s.Shows journal }) hc hh ho depth
  have hend := hends n path t t' s s' result h.visiting.recall h.has h.edge h.linked h.late hrun
  cases result with
  | ok u => exact hend.1
  | error e => exact hend.1.notes

theorem requestsEvaluation_notes (hc : Conduct journal owner reserved hosts) (hh : host ∈ hosts)
    (ho : o.excused = [])
    (h : s.Visiting journal owner reserved o t (⟨m, asked, todo, true⟩ :: path))
    (hrun : (todo.forM (requestEvaluation host depth m)) t s = some ((result, t'), s')) :
    s.Notes journal s' := by
  have hends : VisitsEnd journal owner reserved host { o with known := s.Shows journal } depth :=
    visitEvaluation_ends (o := { o with known := s.Shows journal }) hc hh ho depth
  obtain ⟨-, hn, -⟩ | ⟨e, -, f, -, ht⟩ :=
    requestsEvaluation_ends hc hh hends todo asked s t h.recall hrun
  · exact hn
  · exact ht.notes

/-! ## After a request -/

theorem afterRequest_leaf (hn : s.isCyclic n = false) :
    afterRequest m n t s = some ((.ok (), t), s) := by
  rw [afterRequest, EvalVisit.view_bind, isCyclic_eq_false_iff.1 hn]
  rfl

theorem afterRequest_open (hn : (s.cyclic n).status = .evaluating) :
    afterRequest m n t s = some ((.ok (), t), Visiting.meet s m n) := by
  obtain ⟨c, hc⟩ := Option.isSome_iff_exists.1 (isCyclic_of_awake (Status.awake_of_evaluating hn))
  have hfields : s.cyclic n = c := cyclic_of_cyclic? hc
  subst hfields
  rw [afterRequest, EvalVisit.view_bind, hc]
  dsimp only
  rw [if_pos hn]
  rfl

theorem afterRequest_closed (hcyc : s.isCyclic n) (hn : (s.cyclic n).status ≠ .evaluating)
    (hd : (s.cyclic n).root = some d) : afterRequest m n t s = match (s.cyclic d).error with
      | some e => some ((.error e, t), s)
      | none => some ((.ok (), t), s.await m d) := by
  obtain ⟨c, hc⟩ := Option.isSome_iff_exists.1 hcyc
  have hfields : s.cyclic n = c := cyclic_of_cyclic? hc
  subst hfields
  rw [afterRequest, EvalVisit.view_bind, hc]
  dsimp only
  rw [if_neg hn, EvalVisit.view_bind, cycleRoot_eq, hd, Option.getD_some, EvalVisit.view_bind]
  cases (s.cyclic d).error <;> rfl

theorem await_of_not_turn (h : ¬(s.cyclic d).order.isTurn) : s.await m d = s := if_neg h

/-- A module that was seen is open, or its cycle is closed and has neither failed nor got a turn. -/
theorem afterRequest_seen (h : s.Visiting journal owner reserved o t path)
    (hw : b.Walked seen s) (hm : m ∈ seen) (hn : n ∈ seen) (hcyc : s.isCyclic n)
    (hrun : afterRequest m n t s = some ((result, t'), s')) :
    result = .ok () ∧ b.Walked seen s' ∧ s.Silent p s' := by
  have hplain : ∀ x ∈ seen, s.isCyclic x → (s.cyclic x).IsPlain seen := fun x hx hc =>
    hw.isPlain hx ((hw.isCyclic x (hw.passed x hx).has).symm.trans hc)
  by_cases hopen : (s.cyclic n).status = .evaluating
  · have hsame : ((s.updateCyclic m (·.reach (s.cyclic n).ancestor)).cyclic n).order =
        (s.cyclic n).order := field_updateCyclic (·.order) fun _ => rfl
    rw [afterRequest_open hopen, Visiting.meet,
      await_of_not_turn (by rw [hsame]; exact (hplain n hn hcyc).not_turn)] at hrun
    cases hrun
    exact ⟨rfl, hw.reach hm _, .of_eq rfl rfl⟩
  · obtain ⟨-, q, hq, hroot⟩ := (hplain n hn hcyc).status.resolve_left hopen
    have hmember := h.searching.member n q hroot
    have hqcyc : s.isCyclic q := isCyclic_of_awake ((h.searching.shaped q).not_idle_of_root (by
      rw [hmember.root]
      rintro ⟨⟩))
    have hqplain := hplain q hq hqcyc
    rw [afterRequest_closed hcyc hopen hroot, hqplain.error, await_of_not_turn hqplain.not_turn]
      at hrun
    cases hrun
    exact ⟨rfl, hw, .refl p s⟩

theorem afterRequest_host (hrun : afterRequest m n t s = some ((result, t'), s')) :
    s'.host = s.host := by
  rw [afterRequest, EvalVisit.view_bind] at hrun
  cases hc : s.cyclic? n with
  | none =>
    rw [hc] at hrun
    cases hrun
    rfl
  | some c =>
    rw [hc] at hrun
    dsimp only at hrun
    split at hrun
    · cases hrun
      exact (refields_await _ m n).host
    · rw [EvalVisit.view_bind, EvalVisit.view_bind] at hrun
      cases he : (s.cyclic (s.cycleRoot n)).error with
      | none =>
        rw [he] at hrun
        cases hrun
        exact (refields_await s m _).host
      | some e =>
        rw [he] at hrun
        cases hrun
        rfl

/-- A module that was evaluated before the walk and has not failed itself. -/
structure Bygone (b : Machine σ κ) (seen : List ModuleId) (n : ModuleId) : Prop where
  unseen : n ∉ seen
  cyclic : b.isCyclic n
  status : (b.cyclic n).status = .evaluated
  error : (b.cyclic n).error = none

theorem afterRequest_bygone (hp : b.Plain J R) (hw : b.Walked seen s) (hR : R n)
    (hn : b.Bygone seen n) (hrun : afterRequest m n t s = some ((result, t'), s')) :
    s' = s ∧ b.past n = some result := by
  have hb := hp.has hR
  obtain ⟨q, hroot, hqst, horder⟩ := hp.rooted n hR hn.status hn.error
  have hqawake : ¬(b.cyclic q).status.IsIdle := Status.awake_of_evaluated hqst
  have hqcyc : b.isCyclic q := isCyclic_of_awake hqawake
  have hq : q ∉ seen := fun hq => (hw.passed q hq).fresh (by rw [status_of_isCyclic hqcyc, hqst])
  have hstatus : (s.cyclic n).status ≠ .evaluating := by
    rw [hw.status_eq hb hn.unseen, hn.status]
    exact fun e => nomatch e
  have herror := hw.field (has_of_awake hqawake) hq (·.error) fun _ _ => rfl
  have hturn := hw.field (has_of_awake hqawake) hq (·.order) fun _ _ => rfl
  rw [afterRequest_closed ((hw.isCyclic n hb).trans hn.cyclic) hstatus
    ((hw.field hb hn.unseen (·.root) fun _ _ => rfl).trans hroot), herror] at hrun
  rw [past_of_root hn.cyclic hn.status hn.error hroot hqcyc]
  cases hqe : (b.cyclic q).error with
  | none =>
    rw [hqe, await_of_not_turn (by rw [hturn]; exact horder hqe)] at hrun
    cases hrun
    exact ⟨rfl, rfl⟩
  | some e =>
    rw [hqe] at hrun
    cases hrun
    exact ⟨rfl, rfl⟩

/-- A module that takes part in cycles and was evaluated before without an error is bygone. -/
theorem bygone_of_past (hseen : n ∉ seen) (hcyc : b.isCyclic n) (hpast : b.past n = some (.ok ())) :
    b.Bygone seen n := by
  have hst : (b.cyclic n).status = .evaluated := by
    by_contra hst
    rw [past_of_status_ne (by rwa [status_of_isCyclic hcyc])] at hpast
    cases hpast
  refine ⟨hseen, hcyc, hst, ?_⟩
  by_contra he
  obtain ⟨e, he⟩ := Option.ne_none_iff_exists'.1 he
  rw [past_of_error hcyc hst he] at hpast
  cases hpast

/-- With a module that the walk has nothing left to do for, the walk goes on. -/
theorem afterRequest_settled (h : s.Visiting journal owner reserved o t path) (hp : b.Plain J R)
    (hw : b.Walked seen s) (hm : m ∈ seen) (hR : R n)
    (hn : n ∈ seen ∨ b.past n = some (.ok ()))
    (hrun : afterRequest m n t s = some ((result, t'), s')) :
    result = .ok () ∧ b.Walked seen s' ∧ s.Silent p s' := by
  cases hcyc : s.isCyclic n with
  | false =>
    rw [afterRequest_leaf hcyc] at hrun
    cases hrun
    exact ⟨rfl, hw, .refl p s⟩
  | true =>
    by_cases hseen : n ∈ seen
    · exact afterRequest_seen h hw hm hseen hcyc hrun
    · have hpast := hn.resolve_left hseen
      obtain ⟨rfl, hr⟩ := afterRequest_bygone hp hw hR (bygone_of_past hseen
        ((hw.isCyclic n (hp.has hR)).symm.trans hcyc) hpast) hrun
      rw [hpast] at hr
      cases hr
      exact ⟨rfl, hw, .refl p s'⟩

/-! ## Requests -/

/-- A visit of a module is a piece of a walk, or it passes by a bygone module, of which it is still
to be seen whether its cycle has failed. -/
def Visits (journal : σ → Journal) (host : Host σ κ) (b : Machine σ κ) (p : PromiseId)
    (seen : List ModuleId) (s : Machine σ κ) (n : ModuleId) (result : Except Value Unit)
    (s' : Machine σ κ) : Prop :=
  b.Walks journal host p seen s (.module n) result s' ∨
    b.Bygone seen n ∧ result = .ok () ∧ s' = s

def VisitsWalk (journal : σ → Journal) (owner : κ → ModuleId) (reserved : Set PromiseId)
    (host : Host σ κ) (o : Focus) (J : Journal) (R : ModuleId → Prop) (b : Machine σ κ)
    (p : PromiseId) (depth : Nat) : Prop :=
  ∀ (n : ModuleId) (path : List Frame) (t t' : Traversal) (s s' : Machine σ κ)
    (result : Except Value Unit) (seen : List ModuleId),
    s.Visitable journal owner reserved o path n t → b.Walked seen s → R n →
      journal s'.host ⊆ J → visitEvaluation host depth n t s = some ((result, t'), s') →
        b.Visits journal host p seen s n result s'

theorem Arrived.visiting (h : s.Arrived journal owner reserved o path n t) :
    ∃ path', s.Visiting journal owner reserved o t path' := by
  cases h with
  | leaf h | opened h | closed h | left h => exact ⟨_, h⟩

/-- A request, when visits of a smaller depth are pieces of a walk. -/
theorem requestEvaluation_walks (hc : Conduct journal owner reserved hosts) (hh : host ∈ hosts)
    (ho : o.excused = []) (hp : b.Plain J R)
    (ih : VisitsWalk journal owner reserved host o J R b p depth)
    (h : s.Visiting journal owner reserved o t (⟨m, asked, request :: todo, true⟩ :: path))
    (hw : b.Walked seen s) (hm : m ∈ seen) (hR : R m) (hreq : request ∈ b.requested m)
    (hJ : journal s'.host ⊆ J)
    (hrun : requestEvaluation host depth m request t s = some ((result, t'), s')) :
    b.Walks journal host p seen s (.requests m [request]) result s' := by
  rw [requestEvaluation, visit_bind] at hrun
  obtain ⟨n, t₁, s₁, h₁, h₂⟩ | ⟨e, h₁, rfl⟩ := hrun
  · obtain ⟨rfl, hr⟩ := EvalVisit.ofAct_eq_some.1 h₁
    obtain ⟨k, hk, hj⟩ := (h.resolved hc hh hr).1.noted
    obtain ⟨hv, hnoted⟩ := h.found hc hh hr
    have hw₁ : b.Walked seen s₁ := hw.spares (.of_calls hc (hc.resolve host hh _ _ _ _ _ hr))
    have hsilent : host.Abstains p → s.Silent p s₁ := fun ha => ha.resolve _ _ _ _ _ hr
    have hn : Entry.resolved m request n ∈ journal s.host ++ k := hj ▸ hnoted
    obtain ⟨u, t₂, s₂, h₃, h₄⟩ | ⟨e, h₃, rfl⟩ := visit_bind.1 h₂
    · have hhost := afterRequest_host h₄
      have hJ₂ : journal s₂.host ⊆ J := by rwa [← hhost]
      have hRn := hp.found hR hreq (hJ₂ (hv.notes hc hh ho h₃ _ hnoted))
      obtain ⟨⟨seen₂, hwalk, hok⟩, hsilent₂⟩ | ⟨hby, -, rfl⟩ :=
        ih n _ t₁ t₂ s₁ s₂ (.ok u) seen hv hw₁ hRn hJ₂ h₃
      · obtain ⟨path', hs₂⟩ := (visitEvaluation_ends hc hh ho depth n _ t₁ t₂ s₁ s₂ (.ok u)
          hv.visiting hv.has hv.edge hv.linked hv.late h₃).2.visiting
        obtain ⟨new, k', hgain, hdone⟩ := hwalk.gain trivial
        obtain ⟨rfl, hw', hsilent'⟩ := afterRequest_settled (p := p) hs₂ hp (hok rfl)
          (hgain.seen_mono m hm) hRn (hdone rfl) h₄
        rw [hj] at hwalk
        refine ⟨⟨seen₂, ?_, fun _ => hw'⟩,
          fun ha => ((hsilent ha).trans (hsilent₂ ha)).trans hsilent'⟩
        rw [hhost]
        exact .next (w := ⟨journal s.host, seen⟩) hk hn hwalk .done
      · obtain ⟨rfl, hpast⟩ := afterRequest_bygone hp hw₁ hRn hby h₄
        refine ⟨⟨seen, ?_, fun _ => hw₁⟩, hsilent⟩
        have hwalk : b.terrain.Walk ⟨journal s.host ++ k, seen⟩ (.module n) result
            ⟨journal s.host ++ k, seen⟩ := .before hby.unseen hpast
        rw [hj]
        cases result with
        | ok u => exact .next (w := ⟨journal s.host, seen⟩) hk hn hwalk .done
        | error e => exact .stops (w := ⟨journal s.host, seen⟩) hk hn hwalk
    · have hRn := hp.found hR hreq (hJ (hv.notes hc hh ho h₃ _ hnoted))
      obtain ⟨⟨seen₂, hwalk, -⟩, hsilent₂⟩ | ⟨-, he, -⟩ :=
        ih n _ t₁ t' s₁ s' (.error e) seen hv hw₁ hRn hJ h₃
      · rw [hj] at hwalk
        exact ⟨⟨seen₂, .stops (w := ⟨journal s.host, seen⟩) hk hn hwalk, fun e => by cases e⟩,
          fun ha => (hsilent ha).trans (hsilent₂ ha)⟩
      · cases he
  · obtain ⟨rfl, hr⟩ := EvalVisit.ofAct_eq_some.1 h₁
    obtain ⟨k, hk, hj⟩ := (h.resolved hc hh hr).1.noted
    have hrefused := hc.refused host hh hr
    refine ⟨⟨seen, ?_, fun e => by cases e⟩, fun ha => ha.resolve _ _ _ _ _ hr⟩
    rw [hj] at hrefused ⊢
    exact .refused (w := ⟨journal s.host, seen⟩) hk hrefused

theorem requestsEvaluation_walks (hc : Conduct journal owner reserved hosts) (hh : host ∈ hosts)
    (ho : o.excused = []) (hp : b.Plain J R)
    (ih : VisitsWalk journal owner reserved host o J R b p depth) (hR : R m) (rest : List String)
    (hreq : ∀ r ∈ rest, r ∈ b.requested m) (hJ : journal s'.host ⊆ J) :
    ∀ asked s t seen, s.Visiting journal owner reserved o t (⟨m, asked, rest, true⟩ :: path) →
      b.Walked seen s → m ∈ seen →
        (rest.forM (requestEvaluation host depth m)) t s = some ((result, t'), s') →
          b.Walks journal host p seen s (.requests m rest) result s' := by
  induction rest with
  | nil =>
    intro asked s t seen h hw hm hrun
    cases hrun
    exact ⟨⟨seen, .done, fun _ => hw⟩, fun _ => .refl p s'⟩
  | cons r rest ihr =>
    intro asked s t seen h hw hm hrun
    have hr := hreq r (List.mem_cons_self ..)
    obtain ⟨t₁, s₁, h₁, h₂⟩ | ⟨e, h₁, rfl⟩ := visit_forM_cons.1 hrun
    · obtain ⟨-, -, hs₁⟩ | ⟨e, he, -⟩ :=
        requestEvaluation_ends hc hh (visitEvaluation_ends hc hh ho depth) h h₁
      · have hJ₁ : journal s₁.host ⊆ J := fun e he =>
          hJ (requestsEvaluation_notes hc hh ho hs₁ h₂ e he)
        obtain ⟨⟨seen₁, hwalk, hok⟩, hsilent⟩ :=
          requestEvaluation_walks hc hh ho hp ih h hw hm hR hr hJ₁ h₁
        obtain ⟨new, k, hgain, -⟩ := hwalk.gain fun x hx => List.mem_singleton.1 hx ▸ hr
        obtain ⟨⟨seen', hwalk', hok'⟩, hsilent'⟩ :=
          ihr (fun x hx => hreq x (List.mem_cons_of_mem _ hx)) _ s₁ t₁ seen₁ hs₁ (hok rfl)
            (hgain.seen_mono m hm) h₂
        exact ⟨⟨seen', hwalk.cons hwalk', hok'⟩, fun ha => (hsilent ha).trans (hsilent' ha)⟩
      · cases he
    · obtain ⟨⟨seen', hwalk, -⟩, hsilent⟩ :=
        requestEvaluation_walks hc hh ho hp ih h hw hm hR hr hJ h₁
      exact ⟨⟨seen', hwalk.cut rest, fun e => nomatch e⟩, hsilent⟩

/-! ## Visits -/

theorem runOrWait_plain (h : (s.cyclic m).IsPlain seen) :
    runOrWait host m t s = EvalVisit.ofAct (runSyncBody host m) t s := by
  rw [runOrWait, EvalVisit.view_bind, h.pending, h.hasAwait]
  rfl

theorem runOrWait_walked (hc : Conduct journal owner reserved hosts) (hh : host ∈ hosts)
    (h : s.Visiting journal owner reserved o t (⟨m, asked, [], true⟩ :: path))
    (hw : b.Walked seen s) (hm : m ∈ seen) (hstable : (journal s.host).Stable)
    (hrun : runOrWait host m t s = some ((result, t'), s')) :
    (∃ k, journal s'.host = journal s.host ++ k ∧ Runs m k result) ∧ b.Walked seen s' ∧
      (host.Abstains p → s.Silent p s') := by
  have hcyc : s.isCyclic m := isCyclic_of_awake h.head_awake
  have hplain := hw.isPlain hm ((hw.isCyclic m (hw.passed m hm).has).symm.trans hcyc)
  rw [runOrWait_plain hplain] at hrun
  obtain ⟨rfl, hbody⟩ := EvalVisit.ofAct_eq_some.1 hrun
  have hrunnable := (h.coherent.linked h.idle.linked hstable).runnable m
    (isLinked_of_awake h.head_awake)
  obtain ⟨hruns, hsp, hsilent⟩ := runSyncBody_runs hc hh hcyc hrunnable hbody
  exact ⟨hruns, hw.spares hsp, hsilent⟩

theorem closeEvaluation_host (hrun : closeEvaluation m t s = some ((result, t'), s')) :
    result = .ok () ∧ s'.host = s.host := by
  rw [closeEvaluation, EvalVisit.view_bind] at hrun
  split at hrun
  · cases hrun
    exact ⟨rfl, host_foldl_updateKind _ _⟩
  · cases hrun
    exact ⟨rfl, rfl⟩

theorem closeEvaluation_walked (h : s.Visiting journal owner reserved o t path) (hm : m ∈ t.stack)
    (hp : b.Plain J R) (hw : b.Walked seen s) (hseen : m ∈ seen)
    (hrun : closeEvaluation m t s = some ((result, t'), s')) :
    b.Walked seen s' ∧ s.Silent p s' := by
  have hnodup : t.stack.Nodup := h.searching.search.nodup
  rw [closeEvaluation, EvalVisit.view_bind] at hrun
  split at hrun
  · obtain ⟨pre, post, hstack⟩ := List.append_of_mem hm
    rw [hstack] at hnodup
    have hclose := t.close_of_stack hstack fun hpre =>
      (List.nodup_append.1 hnodup).2.2 m hpre m (List.mem_cons_self ..) rfl
    have hrun' : some ((Except.ok (), (t.close m).2), (t.close m).1.foldl
        (fun s x => s.updateCyclic x (Cyclic.close m)) s) = some ((result, t'), s') := hrun
    rw [hclose] at hrun'
    cases hrun'
    rw [List.append_cons] at hnodup
    have hr : s.Refields ((pre ++ [m]).foldl (fun s x => s.updateCyclic x (Cyclic.close m)) s) :=
      Refields.foldl (f := Cyclic.close m) s (fun _ => ⟨rfl, rfl⟩) _
    refine ⟨hw.close hp hseen (List.nodup_append.1 hnodup).1 fun x hx => ?_,
      .of_eq hr.jobs hr.promises⟩
    rw [h.open_iff, hstack, List.append_cons]
    exact List.mem_append_left _ hx
  · cases hrun
    exact ⟨hw, .refl p s⟩

def leave (host : Host σ κ) (m : ModuleId) : EvalVisit σ κ Unit := do
  runOrWait host m
  closeEvaluation m

theorem leave_notes (hc : Conduct journal owner reserved hosts) (hh : host ∈ hosts)
    (ho : o.excused = []) (h : s.Visiting journal owner reserved o t (⟨m, asked, [], true⟩ :: path))
    (hrun : leave host m t s = some ((result, t'), s')) : s.Notes journal s' := by
  obtain ⟨u, t₁, s₁, h₁, h₂⟩ | ⟨e, h₁, rfl⟩ := visit_bind.1 hrun
  · exact (h.runOrWait_ends hc hh ho h₁).2.1.trans (.of_host (closeEvaluation_host h₂).2)
  · exact (h.runOrWait_ends hc hh ho h₁).2.1

theorem leave_walked (hc : Conduct journal owner reserved hosts) (hh : host ∈ hosts)
    (ho : o.excused = []) (h : s.Visiting journal owner reserved o t (⟨m, asked, [], true⟩ :: path))
    (hp : b.Plain J R) (hw : b.Walked seen s) (hm : m ∈ seen) (hstable : (journal s.host).Stable)
    (hrun : leave host m t s = some ((result, t'), s')) :
    (∃ k, journal s'.host = journal s.host ++ k ∧ Runs m k result) ∧ b.Walked seen s' ∧
      (host.Abstains p → s.Silent p s') := by
  obtain ⟨u, t₁, s₁, h₁, h₂⟩ | ⟨e, h₁, rfl⟩ := visit_bind.1 hrun
  · obtain ⟨rfl, -, hs₁, -⟩ := h.runOrWait_ends hc hh ho h₁
    obtain ⟨hruns, hw₁, hsilent⟩ := runOrWait_walked (p := p) hc hh h hw hm hstable h₁
    obtain ⟨rfl, hhost⟩ := closeEvaluation_host h₂
    obtain ⟨hw', hsilent'⟩ := closeEvaluation_walked (p := p) hs₁ ((hs₁.open_iff m).1 hs₁.head)
      hp hw₁ hm h₂
    exact ⟨hhost ▸ hruns, hw', fun ha => (hsilent ha).trans hsilent'⟩
  · exact runOrWait_walked hc hh h hw hm hstable h₁

theorem firstVisit_walks (hc : Conduct journal owner reserved hosts) (hh : host ∈ hosts)
    (ho : o.excused = []) (hp : b.Plain J R)
    (ih : VisitsWalk journal owner reserved host o J R b p depth)
    (hv : s.Visitable journal owner reserved o path m t) (hw : b.Walked seen s) (hR : R m)
    (hcyclic : s.isCyclic m) (hm : (s.cyclic m).status.IsIdle) (hJ : journal s'.host ⊆ J)
    (hrun : (do
      openEvaluation m
      (s.cyclic m).requested.forM (requestEvaluation host depth m)
      leave host m : EvalVisit σ κ Unit) t s = some ((result, t'), s')) :
    b.Walks journal host p seen s (.module m) result s' := by
  have hb := hp.has hR
  have hbcyc : b.isCyclic m := (hw.isCyclic m hb).symm.trans hcyclic
  have hunseen : m ∉ seen := fun hs => by
    obtain hst | ⟨hst, -⟩ := (hw.isPlain hs hbcyc).status <;> rw [hst] at hm <;> exact hm
  have hfresh : b.status m ≠ .evaluated := fun hst => by
    rw [hw.status_eq hb hunseen, ← status_of_isCyclic hbcyc, hst] at hm
    exact hm
  have hpast : b.terrain.past m = none := past_of_status_ne hfresh
  have hreq : (s.cyclic m).requested = b.requested m := by
    rw [requested_eq]
    exact hw.field hb hunseen (·.requested) fun _ _ => rfl
  have hopen := hv.visiting.enter hm hv.has hcyclic hv.edge hv.linked hv.late
  have hentered := hw.enter hp hR hunseen hbcyc hfresh
    ((hv.visiting.searching.shaped m).idle hm).1 t.visits
  have hsilent : s.Silent p (s.updateCyclic m fun c => Graph.opening c t.visits) := .of_eq rfl rfl
  rw [hreq] at hopen hrun
  obtain ⟨u, t₁, s₁, h₁, h₂⟩ | ⟨e, h₁, rfl⟩ := visit_bind.1 hrun
  · cases h₁
    obtain ⟨u, t₂, s₂, h₃, h₄⟩ | ⟨e, h₃, rfl⟩ := visit_bind.1 h₂
    · obtain ⟨-, -, hs₂⟩ | ⟨e, he, -⟩ := requestsEvaluation_ends hc hh
        (visitEvaluation_ends hc hh ho depth) _ _ _ _ hopen h₃
      · have hJ₂ : journal s₂.host ⊆ J := fun e he => hJ (leave_notes hc hh ho hs₂ h₄ e he)
        obtain ⟨⟨seen₂, hwalk, hok⟩, hsilent₂⟩ := requestsEvaluation_walks (p := p) hc hh ho hp ih
          hR (b.requested m) (fun _ hr => hr) hJ₂ [] _ _ (m :: seen) hopen hentered
          (List.mem_cons_self ..) h₃
        obtain ⟨new, k', hgain, -⟩ := hwalk.gain fun _ hr => hr
        obtain ⟨⟨k, hj, hruns⟩, hw', hsilent'⟩ := leave_walked (p := p) hc hh ho hs₂ hp (hok rfl)
          (hgain.seen_mono m (List.mem_cons_self ..)) (hp.stable.subset hJ₂) h₄
        refine ⟨⟨seen₂, ?_, fun _ => hw'⟩,
          fun ha => (hsilent.trans (hsilent₂ ha)).trans (hsilent' ha)⟩
        rw [hj]
        exact .body (w := ⟨journal s.host, seen⟩) hunseen hpast hwalk hruns
      · cases he
    · obtain ⟨⟨seen₂, hwalk, -⟩, hsilent₂⟩ := requestsEvaluation_walks (p := p) hc hh ho hp ih hR
        (b.requested m) (fun _ hr => hr) hJ [] _ _ (m :: seen) hopen hentered
        (List.mem_cons_self ..) h₃
      exact ⟨⟨seen₂, .broken (w := ⟨journal s.host, seen⟩) hunseen hpast hwalk, fun e => nomatch e⟩,
        fun ha => hsilent.trans (hsilent₂ ha)⟩
  · cases h₁

/-- Each visit is a piece of a walk, unless it passes by a bygone module. -/
theorem visitEvaluation_walks (hc : Conduct journal owner reserved hosts) (hh : host ∈ hosts)
    (ho : o.excused = []) (hp : b.Plain J R) (depth : Nat) :
    VisitsWalk journal owner reserved host o J R b p depth := by
  induction depth with
  | zero =>
    intro n path t t' s s' result seen _ _ _ _ hrun
    obtain ⟨-, a, -, hrun⟩ := EvalVisit.ofRun_eq_some.1 hrun
    cases hrun
  | succ depth ih =>
    intro n path t t' s s' result seen hv hw hR hJ hrun
    have hb := hp.has hR
    rw [visitEvaluation, EvalVisit.view_bind] at hrun
    cases hcyc : s.cyclic? n with
    | none =>
      rw [hcyc] at hrun
      obtain ⟨rfl, hleafrun⟩ := EvalVisit.ofAct_eq_some.1 hrun
      have hleaf : s.isCyclic n = false := by rw [isCyclic, hcyc]; rfl
      exact .inl (requireLeaf_walks hc hh hp hw hR hleaf hleafrun)
    | some c =>
      have hfields : s.cyclic n = c := cyclic_of_cyclic? hcyc
      have hcyclic : s.isCyclic n := by rw [isCyclic, hcyc]; rfl
      have hbcyc : b.isCyclic n := (hw.isCyclic n hb).symm.trans hcyclic
      rw [hcyc] at hrun
      dsimp only at hrun
      subst hfields
      cases hst : (s.cyclic n).status with
      | unlinked | linking | linked =>
        rw [hst] at hrun
        have hidle : (s.cyclic n).status.IsIdle := by rw [hst]; trivial
        exact .inl (firstVisit_walks hc hh ho hp ih hv hw hR hcyclic hidle hJ hrun)
      | evaluating =>
        rw [hst] at hrun
        cases hrun
        exact .inl ⟨⟨seen, .again (hw.mem_of_evaluating hp hb hst), fun _ => hw⟩,
          fun _ => .refl p s⟩
      | evaluatingAsync =>
        exfalso
        by_cases hseen : n ∈ seen
        · obtain h | ⟨h, -⟩ := (hw.isPlain hseen hbcyc).status <;> rw [h] at hst <;> cases hst
        · rw [hw.status_eq hb hseen, ← status_of_isCyclic hbcyc] at hst
          exact hp.still n hR hst
      | evaluated =>
        rw [hst] at hrun
        by_cases hseen : n ∈ seen
        · rw [(hw.isPlain hseen hbcyc).error] at hrun
          cases hrun
          exact .inl ⟨⟨seen, .again hseen, fun _ => hw⟩, fun _ => .refl p s⟩
        · have herror := hw.field hb hseen (·.error) fun _ _ => rfl
          have hbst := (hw.status_eq hb hseen).symm.trans hst
          cases he : (s.cyclic n).error with
          | none =>
            rw [he] at hrun
            cases hrun
            exact .inr ⟨⟨hseen, hbcyc, hbst, herror.symm.trans he⟩, rfl, rfl⟩
          | some e =>
            rw [he] at hrun
            cases hrun
            have hpast := past_of_error hbcyc hbst (herror.symm.trans he)
            exact .inl ⟨⟨seen, .before hseen hpast, fun h => by cases h⟩, fun _ => .refl p s⟩

end Machine

end ModuleGraph

import ModuleGraph.Proofs.Assertions.Trial
import ModuleGraph.Proofs.Runs.Link

/-! # The assertions of linking

A link asserts that the modules on its stack are those that are being linked, that it looks up only
modules that can take part in cycles, and that a cycle is cut off the stack where it begins. -/

namespace ModuleGraph

variable {σ κ : Type}

namespace Checked

variable (host : Host σ κ)

def openLinking (m : ModuleId) : TrialVisit LinkError σ κ Unit := do
  TrialVisit.demand .isUnlinked fun _ s => s.status m = .unlinked
  let t ← get
  TrialVisit.ofTrial <| Trial.change m fun c =>
    { c with status := .linking, visit := some t.visits, ancestor := some t.visits }
  set { t with stack := m :: t.stack, visits := t.visits + 1 : Traversal }

def reachOpen (m required : ModuleId) : TrialVisit LinkError σ κ Unit := do
  match ← TrialVisit.view fun s => s.cyclic? required with
  | none => pure ()
  | some c =>
    TrialVisit.demand .isVisited fun _ _ => c.status ≠ .unlinked
    TrialVisit.demand .openOnStack fun t _ => c.status = .linking ↔ required ∈ t.stack
    if c.status = .linking then TrialVisit.ofTrial (Trial.change m (·.reach c.ancestor))

def requestLinking (visit : List String → ModuleId → TrialVisit LinkError σ κ Unit)
    (path : List String) (m : ModuleId) (request : String) : TrialVisit LinkError σ κ Unit := do
  let required ← TrialVisit.ofVisit (LinkVisit.ofLinking (resolveRequest host path m request))
  visit (path ++ [request]) required
  reachOpen m required

def initializeModule (path : List String) (m : ModuleId) : TrialVisit LinkError σ κ Unit := do
  TrialVisit.demand .isRecord fun _ s => s.isCyclic m
  TrialVisit.ofVisit (LinkVisit.ofLinking (ModuleGraph.initializeModule host path m))
  TrialVisit.demand .isRecord fun _ s => s.isCyclic m

def closeLinking (m : ModuleId) : TrialVisit LinkError σ κ Unit := do
  TrialVisit.demand .onceOnStack fun t _ => t.stack.count m = 1
  let c ← TrialVisit.ofTrial (Trial.fields m)
  TrialVisit.demand .reachesBack fun _ _ => c.reachesBack
  if c.isRoot then
    TrialVisit.demand .rootOnStack fun t _ => m ∈ t.stack
    let (cycle, t) := (← get).close m
    TrialVisit.ofTrial (cycle.forM fun x => Trial.change x fun c => { c with status := .linked })
    set t

def visitLinking : Nat → List String → ModuleId → TrialVisit LinkError σ κ Unit
  | 0, _, _ => TrialVisit.ofVisit (LinkVisit.ofRun .exhausted)
  | depth + 1, path, m => do
    match ← TrialVisit.view fun s => s.cyclic? m with
    | none => TrialVisit.ofVisit (LinkVisit.ofLinking (linkLeaf host path m))
    | some c =>
      if c.status = .unlinked then do
        openLinking m
        c.requested.forM (requestLinking host (visitLinking depth) path m)
        initializeModule host path m
        closeLinking m

def unlink (m : ModuleId) : Trial σ κ Unit := do
  Trial.demand .isLinking fun s => s.status m = .linking
  Trial.demand .isRecord fun s => s.isCyclic m
  Trial.update fun s => s.unlink m

def link (m : ModuleId) : Trial σ κ (Except LinkError Unit) := do
  let (result, t) ← (visitLinking host host.depth [] m).run.run ⟨[], 0⟩
  match result with
  | .ok () => do
    Trial.demand .stackEmpty fun _ => t.stack = []
    pure (.ok ())
  | .error e => do
    t.stack.forM unlink
    pure (.error e)

end Checked

namespace Machine

open Relation

/-! ## Links that start with nothing open

What the search of a link keeps depends on what it starts from. `P` says that it starts well. -/

variable {P : Prop} {journal : σ → Journal} {start before s s' : Machine σ κ}
variable {t t' : Traversal} {path : List ModuleId} {m n : ModuleId} {host : Host σ κ}
variable {view : Machine σ κ → Machine σ κ} {names requests handled : List String}

theorem InLink.isCyclic {stack : List ModuleId} (hv : LinkView view)
    (h : InLink journal start (view s) stack) (hm : m ∈ stack) : s.isCyclic m := by
  obtain ⟨c, hc, -⟩ := h.marked m hm
  rw [hv.cyclic?] at hc
  rw [Machine.isCyclic, hc]
  rfl

theorem openLinking_sure (hm : s.isCyclic m) (hu : s.status m = .unlinked) :
    Sure (fun _ => P) (Checked.openLinking m t) (openLinking m t) s :=
  .visit_demand (fun _ => hu) <| .visit_bind (.inl rfl) fun _ _ _ h => by
    cases h
    exact .visit_bind (.visit_lift (.change fun _ => hm)) fun _ _ _ _ => .inl rfl

theorem reachOpen_sure (hm : P → s.isCyclic m) (hn : P → ∀ c, s.cyclic? n = some c →
    c.status ≠ .unlinked ∧ (c.status = .linking ↔ n ∈ t.stack)) :
    Sure (fun _ => P) (Checked.reachOpen m n t) (LinkVisit.update (reachOpen m n) t) s := by
  refine .visit_view ?_
  cases hc : s.cyclic? n with
  | none => exact .of_eq (q := LinkVisit.update id t) (by simp [reachOpen, hc]) (.inl rfl)
  | some c =>
    refine .visit_demand (fun hp => (hn hp c hc).1) (.visit_demand (fun hp => (hn hp c hc).2) ?_)
    by_cases hl : c.status = .linking
    · rw [if_pos hl]
      exact .of_eq (q := LinkVisit.update (fun s => s.updateCyclic m (·.reach c.ancestor)) t)
        (by simp [reachOpen, hc, hl]) (.visit_lift (.change hm))
    · rw [if_neg hl]
      exact .of_eq (q := LinkVisit.update id t) (by simp [reachOpen, hc, hl]) (.inl rfl)

theorem closeLinking_sure (h : P → Searching journal start (view s) t (m :: path))
    (hv : LinkView view) : Sure (fun _ => P) (Checked.closeLinking m t) (closeLinking m t) s := by
  have hm := fun hp => (h hp).search.head_mem
  have hcyclic : P → ∀ x ∈ t.stack, s.isCyclic x := fun hp x => (h hp).toInLink.isCyclic hv
  refine .visit_demand (fun hp => List.count_eq_one_of_mem (h hp).nodup (hm hp))
    (.visit_fields (fun hp => hcyclic hp m (hm hp)) (.visit_demand (fun hp => ?_) ?_))
  · obtain ⟨d, hd, hvisit, -⟩ := (h hp).marked m (hm hp)
    rw [← hv.cyclic, cyclic_of_cyclic? hd]
    have hle := (h hp).search.low_le m (hm hp)
    rw [lowOf, visitOf, cyclic_of_cyclic? hd] at hle
    exact reachesBack_of_le hvisit hle
  refine .of_eq (LinkVisit.view_bind _ _) ?_
  by_cases hr : (s.cyclic m).isRoot
  · rw [if_pos hr, if_pos hr]
    refine .visit_demand hm (.visit_bind (.inl rfl) fun _ _ _ h => ?_)
    cases h
    refine .visit_bind (.visit_lift ?_) fun _ _ _ _ => .inl rfl
    exact Sure.foldl (I := fun rest s => P → ∀ x ∈ rest, s.isCyclic x)
      (fun x rest s h => .change fun hp => h hp x (List.mem_cons_self ..))
      (fun x rest s h hp y hy =>
        (isCyclic_updateCyclic s x y _).trans (h hp y (List.mem_cons_of_mem _ hy))) _
      fun hp x hx => hcyclic hp x (t.mem_of_close hx)
  · rw [if_neg hr, if_neg hr]
    exact .inl rfl

theorem initializeModule_sure (hc : LinksThrough journal view host)
    (h : P → Requesting journal start before t.stack path m requests handled (view s) t') :
    Sure (fun _ => P) (Checked.initializeModule host names m t')
      (LinkVisit.ofLinking (initializeModule host names m) t') s := by
  have hm := fun hp => (h hp).searching.search.head_mem
  refine .visit_demand (fun hp => (h hp).searching.toInLink.isCyclic hc.toLinkView (hm hp)) ?_
  refine .of_eq (q := (LinkVisit.ofLinking (initializeModule host names m) >>= pure) t')
    (by rw [bind_pure]) (.visit_bind (.inl rfl) fun _ t₁ s₁ hrun => ?_)
  obtain ⟨rfl, hinit⟩ := LinkVisit.ofLinking_eq_some.1 hrun
  refine .visit_demand_last fun hp => ?_
  have h₁ := (h hp).keeps (hc.module hinit) fun _ e => e
  exact h₁.searching.toInLink.isCyclic hc.toLinkView (hm hp)

theorem Visited.open_iff (h : Visited journal start s t path m s' t') :
    (∀ x, s'.status x = .linking ↔ x ∈ t'.stack) ∧ s'.status m ≠ .unlinked := by
  have hnot : ∀ {st : Status}, st.IsLinked ∨ st = .linking → st ≠ .unlinked := by
    rintro st hst rfl
    obtain hl | hl := hst
    · exact hl
    · cases hl
  obtain ⟨hs, hm⟩ | ⟨hs, -⟩ := h.outcome
  · exact ⟨hs.open_iff, hnot (hm.imp id (hs.open_iff m).2)⟩
  · exact ⟨hs.open_iff, hnot (.inr ((hs.open_iff m).2 hs.search.head_mem))⟩

/-- A module is opened, and none of its requests is handled yet. -/
theorem Searching.requesting (hc : LinksThrough journal view host)
    (h : Searching journal start (view s) t path) (hm : s.Has m) {c : Cyclic}
    (hcyc : s.cyclic? m = some c) (hu : c.status = .unlinked) :
    Requesting journal start (view s) t.stack path m c.requested []
      (view (s.updateCyclic m fun c =>
        { c with status := .linking, visit := some t.visits, ancestor := some t.visits }))
      ⟨m :: t.stack, t.visits + 1⟩ := by
  obtain ⟨hs, habove, hreq⟩ := h.enter ((hc.has s m).2 hm) ((hc.cyclic? s m).trans hcyc) hu rfl
  rw [← hc.updateCyclic] at hs habove hreq
  exact ⟨hs, List.suffix_rfl, habove, hreq, fun _ hr => nomatch hr⟩

variable {depth : Nat}

theorem requestLinking_sure (hc : LinksThrough journal view host)
    (ih : ∀ names n path t s, (P → Searching journal start (view s) t path) → s.Has n →
      Sure (fun _ => P) (Checked.visitLinking host depth names n t)
        (visitLinking host depth names n t) s)
    {base : List ModuleId} {r : String}
    (h : P → Requesting journal start before base path m requests handled (view s) t) :
    Sure (fun _ => P) (Checked.requestLinking host (Checked.visitLinking host depth) names m r t)
      (requestLinking host depth names m r t) s := by
  refine .visit_bind (.inl rfl) fun n t₁ s₁ hrun => ?_
  obtain ⟨rfl, hr⟩ := LinkVisit.ofLinking_eq_some.1 hrun
  obtain ⟨a, hresolve, ha⟩ := Linking.ofAct_eq_some.1 hr
  cases a with
  | error e => cases ha
  | ok n' =>
    cases ha
    have h₁ := fun hp => ((h hp).keeps (hc.resolve hresolve) fun _ => False.elim).searching
    have hn := (hc.answers hresolve).2
    refine .visit_bind (ih _ _ _ _ _ h₁ hn) fun _ t₂ s₂ hvisit => ?_
    have hv : P → Visited journal start (view s₁) t₁ (m :: path) n (view s₂) t₂ := fun hp =>
      visitLinking_ends hc depth _ _ _ _ _ _ _ _ (h₁ hp) hn hvisit
    refine reachOpen_sure (fun hp => ?_) fun hp c hcyc => ?_
    · have hm := (h₁ hp).search.head_mem
      rw [isCyclic, ← hc.cyclic?, (hv hp).above.cyclic m hm]
      exact (h₁ hp).toInLink.isCyclic linkView_id hm
    · rw [← hc.cyclic?] at hcyc
      rw [← status_of_cyclic? hcyc]
      exact ⟨(hv hp).open_iff.2, (hv hp).open_iff.1 n⟩

theorem visitLinking_sure (hc : LinksThrough journal view host) (depth : Nat) :
    ∀ names m path t s, (P → Searching journal start (view s) t path) → s.Has m →
      Sure (fun _ => P) (Checked.visitLinking host depth names m t)
        (visitLinking host depth names m t) s := by
  induction depth with
  | zero => exact fun _ _ _ _ _ _ _ => .inl rfl
  | succ depth ih =>
    intro names m path t s h hm
    rw [Checked.visitLinking, visitLinking]
    refine .of_eq (LinkVisit.view_bind _ _) (.visit_view ?_)
    cases hcyc : s.cyclic? m with
    | none => exact .inl rfl
    | some c =>
      dsimp only
      by_cases hu : c.status = .unlinked
      swap
      · rw [if_neg hu, if_neg hu]
        exact .inl rfl
      rw [if_pos hu, if_pos hu]
      refine .visit_bind (openLinking_sure ?_ ?_) fun _ t₁ s₁ h₁ => ?_
      · rw [isCyclic, hcyc]
        rfl
      · rw [status_of_cyclic? hcyc, hu]
      cases h₁
      have hstart := fun hp => (h hp).requesting hc hm hcyc hu
      -- The requests, each with what was handled before it.
      refine .visit_bind (Sure.visit_forM
        (g := requestLinking host depth names m)
        (I := fun rest t₁ s₁ => ∃ handled, P →
          Requesting journal start (view s) t.stack path m c.requested handled (view s₁) t₁)
        (fun r rest t₁ s₁ h₁ => h₁.elim fun _ h₁ => requestLinking_sure hc ih h₁)
        (fun r rest t₁ s₁ t₂ s₂ h₁ hrun => ?_) _ _ _ ⟨[], hstart⟩) fun _ t₂ s₂ h₂ => ?_
      · obtain ⟨handled, h₁⟩ := h₁
        refine ⟨handled ++ [r], fun hp => ?_⟩
        obtain ⟨-, h₂⟩ | ⟨e, he, -⟩ :=
          requestLinking_ends hc (visitLinking_ends hc depth) (h₁ hp) hrun
        · exact h₂
        · cases he
      have hall : P → Requesting journal start (view s) t.stack path m c.requested c.requested
          (view s₂) t₂ := fun hp => by
        obtain ⟨-, hall⟩ | ⟨e, he, -⟩ :=
          requestsLinking_ends hc (visitLinking_ends hc depth) c.requested _ _ _ (hstart hp) h₂
        · exact hall
        · cases he
      refine .visit_bind (initializeModule_sure hc hall) fun _ t₃ s₃ h₃ => ?_
      obtain ⟨rfl, h₄⟩ := LinkVisit.ofLinking_eq_some.1 h₃
      exact closeLinking_sure
        (fun hp => ((hall hp).keeps (hc.module h₄) fun _ e => e).searching) hc.toLinkView

theorem kind_unlink_of_ne (hm : s.Has m) (hx : n ≠ m) :
    ((s.unlink m).module n).kind = (s.module n).kind := by
  rw [unlink_eq_updateKind, kind_updateKind _ hm, if_neg hx]

theorem unlinkAll_sure {stack : List ModuleId} (hv : LinkView view)
    (h : P → InLink journal start (view s) stack) : Sure (fun _ => P)
      (stack.forM Checked.unlink) (Run.update fun s => stack.foldl Machine.unlink s) s := by
  refine Sure.foldl (I := fun rest s => P → rest.Nodup ∧
    ∀ x ∈ rest, s.status x = .linking ∧ s.isCyclic x) (fun x rest s h => ?_) ?_ stack
    fun hp => ⟨(h hp).nodup, fun x hx => ?_⟩
  · exact .demand (fun hp => ((h hp).2 x (List.mem_cons_self ..)).1)
      (.demand (fun hp => ((h hp).2 x (List.mem_cons_self ..)).2) (.ofRun _))
  · intro x rest s h hp
    obtain ⟨hnodup, h⟩ := h hp
    obtain ⟨hx, hrest⟩ := List.nodup_cons.1 hnodup
    have hhas : s.Has x := has_of_status_ne (by
      rw [(h x (List.mem_cons_self ..)).1]
      exact fun e => nomatch e)
    refine ⟨hrest, fun y hy => ?_⟩
    have hkind := kind_unlink_of_ne hhas fun e => hx (e ▸ hy)
    rw [status, isCyclic, cyclic?_eq, hkind]
    exact h y (List.mem_cons_of_mem _ hy)
  · obtain ⟨c, hcyc, -⟩ := (h hp).marked x hx
    refine ⟨?_, (h hp).isCyclic hv hx⟩
    rw [← ((h hp).open_iff x).2 hx, status_of_cyclic? hcyc,
      status_of_cyclic? ((hv.cyclic? s x).symm.trans hcyc)]

/-- A link that is started while nothing is open. -/
theorem link_sure_of_atRest (hc : LinksThrough journal view host)
    (h : P → (view s).AtRest journal) (hm : s.Has m) :
    Sure (fun _ => P) (Checked.link host m) (host.link m) s := by
  have hfirst : P → Searching journal (view s) (view s) ⟨[], 0⟩ [] := fun hp =>
    .first (h hp).inLink
  refine .bind (visitLinking_sure hc _ _ _ _ _ _ hfirst hm) fun p s₁ hrun => ?_
  obtain ⟨result, t⟩ := p
  have hends := fun hp =>
    visitLinking_ends hc host.depth [] m [] s ⟨[], 0⟩ result s₁ t (hfirst hp) hm hrun
  cases result with
  | ok u =>
    refine .demand (fun hp => ?_) (.pure _)
    obtain ⟨hs, -⟩ | ⟨hs, hlt, -⟩ := (hends hp).outcome
    · exact hs.search.stack_eq_nil
    · have := hs.search.low_eq_of_first
      omega
  | error e => exact .bind (unlinkAll_sure hc.toLinkView hends) fun _ _ _ => .pure _

/-! ## Links of an unstable host -/

section Notes

variable {owner : κ → ModuleId} {reserved : Set PromiseId} {hosts : Set (Host σ κ)}

theorem Notes.composes (journal : σ → Journal) :
    Composes (Machine.Notes (κ := κ) journal) :=
  ⟨fun _ => .of_host rfl, .trans⟩

theorem notes_of_calls (hc : Conduct journal owner reserved hosts)
    (h : Calls journal reserved hosts s s') : s.Notes journal s' :=
  fun _ => (quiet_of_calls hc.track h).mem_journal

/-- Even a link whose assertions fail keeps the entries of the journal. -/
theorem visitLinking_notes (hc : Conduct journal owner reserved hosts) (hh : host ∈ hosts)
    (depth : Nat) : ∀ names m t,
      Trial.Along (Machine.Notes journal) (Checked.visitLinking host depth names m t) := by
  have hR := Notes.composes (κ := κ) journal
  have hupdate : ∀ {f : Machine σ κ → Machine σ κ}, (∀ s, (f s).host = s.host) →
      Trial.Along (Machine.Notes journal) (Trial.update f) := fun hf =>
    .ofRun (.update fun s => .of_host (hf s))
  have hchange : ∀ m f, Trial.Along (Machine.Notes (κ := κ) journal) (Trial.change m f) :=
    fun m f => .bind hR (.demand hR _ _) fun _ => hupdate fun _ => rfl
  have hresolve : ∀ names m r,
      Across (Machine.Notes journal) (LinkVisit.ofLinking (resolveRequest host names m r)) :=
    fun names m r => .ofLinking (.ofAct fun s a s' h =>
      notes_of_calls hc (hc.resolve host hh _ _ s a s' h))
  have hinit : ∀ names m,
      Across (Machine.Notes journal) (LinkVisit.ofLinking (initializeModule host names m)) :=
    fun names m => .ofLinking fun s a s' h => by
      obtain ⟨s₁, hcalls, ⟨rfl, -⟩ | ⟨w, rfl⟩⟩ := initializeModule_cases hc hh h
      · exact notes_of_calls hc hcalls
      · exact (notes_of_calls hc hcalls).trans (.of_host rfl)
  induction depth with
  | zero => exact fun _ _ _ => .visit_ofVisit fun _ _ _ _ h => nomatch h
  | succ depth ih =>
    intro names m t
    refine .visit_bind hR (.visit_lift hR (.ofRun (.view hR _))) fun c? t => ?_
    cases c? with
    | none =>
      exact .visit_ofVisit (.ofLinking fun s a s' h =>
        LinkSteps.notes hc (linkLeaf_builds hc hh h).steps)
    | some c =>
      dsimp only
      split
      · refine .visit_bind hR ?_ fun _ t => .visit_bind hR (.visit_forM hR (fun r t => ?_) _ _)
          fun _ t => .visit_bind hR ?_ fun _ t => ?_
        · refine .visit_bind hR (.visit_demand hR _ _) fun _ t => .visit_bind hR (.pure hR _)
            fun _ t => .visit_bind hR (.visit_lift hR (hchange m _)) fun _ t => .pure hR _
        · refine .visit_bind hR (.visit_ofVisit (hresolve _ _ _)) fun n t =>
            .visit_bind hR (ih _ _ _) fun _ t => .visit_bind hR
              (.visit_lift hR (.ofRun (.view hR _))) fun c? t => ?_
          cases c? with
          | none => exact .pure hR _
          | some d =>
            refine .visit_bind hR (.visit_demand hR _ _) fun _ t =>
              .visit_bind hR (.visit_demand hR _ _) fun _ t => ?_
            split
            · exact .visit_lift hR (hchange m _)
            · exact .pure hR _
        · exact .visit_bind hR (.visit_demand hR _ _) fun _ t =>
            .visit_bind hR (.visit_ofVisit (hinit _ _)) fun _ t => .visit_demand hR _ _
        · refine .visit_bind hR (.visit_demand hR _ _) fun _ t =>
            .visit_bind hR (.visit_lift hR (.fields hR _)) fun c t =>
              .visit_bind hR (.visit_demand hR _ _) fun _ t => ?_
          split
          · exact .visit_bind hR (.visit_demand hR _ _) fun _ t => .visit_bind hR (.pure hR _)
              fun _ t => .visit_bind hR (.visit_lift hR (.forM hR (fun x => hchange x _) _))
                fun _ t => .pure hR _
          · exact .pure hR _
      · exact .pure hR _

theorem link_notes (hc : Conduct journal owner reserved hosts) (hh : host ∈ hosts) (m : ModuleId) :
    Trial.Along (Machine.Notes journal) (Checked.link host m) := by
  have hR := Notes.composes (κ := κ) journal
  refine .bind hR (visitLinking_notes hc hh _ _ _ _) fun p => ?_
  obtain ⟨result, t⟩ := p
  cases result with
  | ok u => exact .bind hR (.demand hR _ _) fun _ => .pure hR _
  | error e =>
    refine .bind hR (.forM hR (fun x => ?_) _) fun _ => .pure hR _
    exact .bind hR (.demand hR _ _) fun _ => .bind hR (.demand hR _ _) fun _ =>
      .ofRun (.update fun s => .of_host rfl)

variable {known : Finding → Prop} {spare : PromiseId → Prop}

/-- A link goes as if nothing was asserted, as long as resolution is stable. -/
theorem Resting.link_sure (hc : Conduct journal owner reserved hosts) (hh : host ∈ hosts)
    (h : s.Resting journal owner reserved known spare) (hm : s.Has m) :
    Sure (fun s => (journal s.host).Stable) (Checked.link host m) (host.link m) s := by
  refine (link_sure_of_atRest (P := (journal s.host).Stable) (linksThrough_bare hc hh)
    (fun hst => (h.coherent.linked id hst).atRest) hm).mono fun b hb hst => ?_
  exact Notes.stable (link_notes hc hh m s _ hb) hst

end Notes

end Machine

end ModuleGraph

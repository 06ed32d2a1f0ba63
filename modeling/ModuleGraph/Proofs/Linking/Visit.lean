import ModuleGraph.Proofs.Computation
import ModuleGraph.Proofs.Linking.Search

/-! # The visits of a link

Each visit that returns keeps the search going and leaves what was on the stack before. A visit
that fails leaves the modules on the stack to be taken back. This is said of a view of the machine,
which may hide what the search of a link does not depend on. -/

namespace ModuleGraph.Machine

variable {σ κ : Type} {journal : σ → Journal} {start s s' : Machine σ κ} {t t' : Traversal}
variable {path base : List ModuleId} {m n x : ModuleId} {r : String}
variable {host : Host σ κ} {names : List String} {result : Except LinkError Unit}
variable {view : Machine σ κ → Machine σ κ}

/-! ## Views -/

/-- A way of looking at machines that shows all that the search of a link reads and writes. -/
structure LinkView (view : Machine σ κ → Machine σ κ) : Prop where
  host_eq : ∀ s, (view s).host = s.host
  has : ∀ s m, (view s).Has m ↔ s.Has m
  cyclic? : ∀ s m, (view s).cyclic? m = s.cyclic? m
  leaf_iff : ∀ s m state,
    ((view s).module m).kind = .leaf state ↔ (s.module m).kind = .leaf state
  updateCyclic : ∀ s m f, view (s.updateCyclic m f) = (view s).updateCyclic m f
  updateLeaf : ∀ s m {f : ModuleKind → ModuleKind} {state state'}, (s.module m).kind = .leaf state →
    f (.leaf state) = .leaf state' → view (s.updateKind m f) = (view s).updateKind m f
  unlink : ∀ s m, view (s.unlink m) = (view s).unlink m

theorem linkView_id : LinkView (id : Machine σ κ → Machine σ κ) :=
  ⟨fun _ => rfl, fun _ _ => .rfl, fun _ _ => rfl, fun _ _ _ => .rfl, fun _ _ _ => rfl,
    fun _ _ _ _ _ _ _ => rfl, fun _ _ => rfl⟩

namespace LinkView

theorem cyclic (h : LinkView view) (s : Machine σ κ) (m : ModuleId) :
    (view s).cyclic m = s.cyclic m := by rw [Machine.cyclic, h.cyclic?, Machine.cyclic]

theorem reachOpen (h : LinkView view) (s : Machine σ κ) (m n : ModuleId) :
    view (ModuleGraph.reachOpen m n s) = ModuleGraph.reachOpen m n (view s) := by
  rw [ModuleGraph.reachOpen, ModuleGraph.reachOpen, h.cyclic?]
  split
  · split
    · exact h.updateCyclic _ _ _
    · rfl
  · rfl

theorem foldl {step : Machine σ κ → ModuleId → Machine σ κ}
    (hstep : ∀ s m, view (step s m) = step (view s) m) (xs : List ModuleId) (s : Machine σ κ) :
    view (xs.foldl step s) = xs.foldl step (view s) := by
  induction xs generalizing s with
  | nil => rfl
  | cons x rest ih => rw [List.foldl_cons, ih, hstep, List.foldl_cons]

theorem linked (h : LinkView view) (cycle : List ModuleId) (s : Machine σ κ) :
    view (cycle.foldl (fun s x => s.setStatus x .linked) s) =
      cycle.foldl (fun s x => s.setStatus x .linked) (view s) :=
  foldl (fun s x => h.updateCyclic s x _) cycle s

end LinkView

/-- How a host conducts itself during a link, as far as the view shows it. -/
structure LinksThrough (journal : σ → Journal) (view : Machine σ κ → Machine σ κ)
    (host : Host σ κ) : Prop extends LinkView view where
  resolve : ∀ {m request s r s'}, host.resolve (.module m) request s = some (r, s') →
    (view s).Keeps journal (fun _ => False) (view s')
  answers : ∀ {m request s n s'}, host.resolve (.module m) request s = some (.ok n, s') →
    Entry.resolved m request n ∈ journal s'.host ∧ s'.Has n
  linkLeaf : ∀ {m s r s'}, host.linkLeaf m s = some (r, s') →
    (view s).Keeps journal (fun _ => False) (view s')
  module : ∀ {names m s r s'}, initializeModule host names m s = some (r, s') →
    (view s).Keeps journal (· = m) (view s')

theorem linksThrough_id (h : LinkConduct journal host) : LinksThrough journal id host :=
  { linkView_id with
    resolve := fun hr => h.resolve _ _ _ _ _ hr
    answers := h.answers
    linkLeaf := fun hr => h.linkLeaf _ _ _ _ hr
    module := fun hr => h.initializeModule _ _ _ _ _ hr }

/-! ## Requests -/

def requestLinking (host : Host σ κ) (depth : Nat) (names : List String) (m : ModuleId)
    (request : String) : LinkVisit σ κ Unit := do
  let required ← LinkVisit.ofLinking (resolveRequest host names m request)
  visitLinking host depth (names ++ [request]) required
  LinkVisit.update (reachOpen m required)

variable {depth : Nat} {before : Machine σ κ} {requests handled : List String}

/-- One request, when the visits of a smaller depth end as they should. -/
theorem requestLinking_ends (hc : LinksThrough journal view host)
    (ih : ∀ names n path s t result s' t', Searching journal start (view s) t path → s.Has n →
      visitLinking host depth names n t s = some ((result, t'), s') →
        VisitEnds journal start (view s) t path n (view s') t' result)
    (h : Requesting journal start before base path m requests handled (view s) t)
    (hrun : requestLinking host depth names m r t s = some ((result, t'), s')) :
    (result = .ok () ∧
        Requesting journal start before base path m requests (handled ++ [r]) (view s') t') ∨
      ∃ e, result = .error e ∧ InLink journal start (view s') t'.stack := by
  rw [requestLinking, visit_bind] at hrun
  obtain ⟨n, t₁, s₁, h₁, h₂⟩ | ⟨e, h₁, rfl⟩ := hrun
  · obtain ⟨rfl, hr⟩ := LinkVisit.ofLinking_eq_some.1 h₁
    obtain ⟨a, hr, ha⟩ := Linking.ofAct_eq_some.1 hr
    cases a with
    | error e => cases ha
    | ok n' =>
      cases ha
      obtain ⟨he, hn⟩ := hc.answers hr
      have h' := h.keeps (hc.resolve hr) fun _ => False.elim
      obtain ⟨_, t₂, s₂, h₃, h₄⟩ | ⟨e, h₃, rfl⟩ := visit_bind.1 h₂
      · have hv := ih _ _ _ _ _ _ _ _ h'.searching hn h₃
        cases h₄
        rw [hc.reachOpen]
        exact .inl ⟨rfl, h'.afterVisit (by rwa [hc.host_eq]) hv⟩
      · exact .inr ⟨e, rfl, ih _ _ _ _ _ _ _ _ h'.searching hn h₃⟩
  · obtain ⟨rfl, hr⟩ := LinkVisit.ofLinking_eq_some.1 h₁
    obtain ⟨a, hr, -⟩ := Linking.ofAct_eq_some.1 hr
    exact .inr ⟨e, rfl, (h.keeps (hc.resolve hr) fun _ => False.elim).searching.toInLink⟩

theorem requestsLinking_ends (hc : LinksThrough journal view host)
    (ih : ∀ names n path s t result s' t', Searching journal start (view s) t path → s.Has n →
      visitLinking host depth names n t s = some ((result, t'), s') →
        VisitEnds journal start (view s) t path n (view s') t' result) (rest : List String) :
    ∀ handled s t, Requesting journal start before base path m requests handled (view s) t →
      (rest.forM (requestLinking host depth names m)) t s = some ((result, t'), s') →
        (result = .ok () ∧
          Requesting journal start before base path m requests (handled ++ rest) (view s') t') ∨
        ∃ e, result = .error e ∧ InLink journal start (view s') t'.stack := by
  induction rest with
  | nil =>
    intro handled s t h hrun
    cases hrun
    exact .inl ⟨rfl, by rwa [List.append_nil]⟩
  | cons r rest ihr =>
    intro handled s t h hrun
    obtain ⟨t₁, s₁, h₁, h₂⟩ | ⟨e, h₁, rfl⟩ := visit_forM_cons.1 hrun
    · obtain ⟨-, h'⟩ | ⟨e, he, -⟩ := requestLinking_ends hc ih h h₁
      · rw [List.append_cons]
        exact ihr _ _ _ h' h₂
      · cases he
    · obtain ⟨he, -⟩ | ⟨e, -, h'⟩ := requestLinking_ends hc ih h h₁
      · cases he
      · exact .inr ⟨_, rfl, h'⟩

theorem closeLinking_ends (hv : LinkView view)
    (h : Requesting journal start before t.stack path m requests requests (view s) t')
    (hrun : closeLinking m t' s = some ((result, t₂), s')) :
    result = .ok () ∧ Visited journal start before t path m (view s') t₂ := by
  rw [closeLinking, visit_bind] at hrun
  obtain ⟨root, t₁, s₁, h₁, h₂⟩ | ⟨e, h₁, rfl⟩ := hrun
  · cases h₁
    have hm := h.searching.search.head_mem
    obtain ⟨c, hc, hcv, ha⟩ := h.searching.marked m hm
    have hroot : (s.cyclic m).isRoot ↔ (view s).lowOf m = (view s).visitOf m := by
      obtain ⟨i, hi⟩ := Option.isSome_iff_exists.1 hcv
      obtain ⟨j, hj⟩ := Option.isSome_iff_exists.1 ha
      rw [← hv.cyclic]
      simp [lowOf, visitOf, cyclic_of_cyclic? hc, Cyclic.isRoot, hi, hj]
    by_cases hr : (s.cyclic m).isRoot
    · obtain ⟨cycle, hclose, hs, habove, hl⟩ := h.close (hroot.1 hr)
      rw [if_pos hr] at h₂
      obtain ⟨t₁', t₃, s₃, h₂, h₃⟩ | ⟨e, h₂, -⟩ := visit_bind.1 h₂
      · cases h₂
        rw [hclose] at h₃
        cases h₃
        rw [← hv.linked] at hs habove hl
        exact ⟨rfl, List.suffix_rfl, habove, .inl ⟨hs, .inl hl⟩⟩
      · cases h₂
    · rw [if_neg hr] at h₂
      cases h₂
      refine ⟨rfl, (List.suffix_cons m _).trans h.suffix, h.above, .inr ⟨h.searching, ?_, ?_⟩⟩
      · exact Nat.lt_of_le_of_ne (h.searching.search.low_le m hm) fun e => hr (hroot.2 e)
      · rw [h.requested]
        exact h.reached
  · cases h₁

section LeafLinked

variable {f : ModuleKind → ModuleKind} (hm : s.Has m)
  (hleaf : (s.module m).kind = .leaf .unlinked) (hf : f (.leaf .unlinked) = .leaf .linked)
include hm hleaf hf

theorem status_linkLeaf_self : (s.updateKind m f).status m = .linked := by
  rw [status, kind_updateKind f hm, if_pos rfl, hleaf, hf]
  rfl

theorem cyclic?_linkLeaf (x : ModuleId) : (s.updateKind m f).cyclic? x = s.cyclic? x := by
  rw [cyclic?_eq, kind_updateKind f hm]
  split
  · rename_i e
    rw [e, hleaf, hf, cyclic?_eq, hleaf]
    rfl
  · rw [cyclic?_eq]

theorem isLinked_linkLeaf (hx : (s.status x).IsLinked) :
    ((s.updateKind m f).status x).IsLinked := by
  by_cases e : x = m
  · rw [e, status_linkLeaf_self hm hleaf hf]
    trivial
  · rwa [status, kind_updateKind f hm, if_neg e, ← status]

theorem InLink.leaf {stack : List ModuleId} (h : InLink journal start s stack) :
    InLink journal start (s.updateKind m f) stack := by
  have hself := status_linkLeaf_self hm hleaf hf
  have hcyclic := cyclic?_linkLeaf hm hleaf hf
  have hkind : ∀ x, x ≠ m → ((s.updateKind m f).module x).kind = (s.module x).kind :=
    fun x hx => by rw [kind_updateKind f hm, if_neg hx]
  have hother : ∀ x, x ≠ m → (s.updateKind m f).status x = s.status x :=
    fun x hx => by rw [status, hkind x hx, status]
  have hms : m ∉ stack := fun hms => by
    obtain ⟨c, hc, -⟩ := h.marked m hms
    rw [cyclic?_eq, hleaf] at hc
    cases hc
  constructor
  case nodup => exact h.nodup
  case open_iff =>
    intro x
    by_cases e : x = m
    · rw [e, hself]
      exact ⟨fun e => Status.noConfusion e, fun hx => absurd hx hms⟩
    · rw [hother x e]
      exact h.open_iff x
  case marked =>
    intro x hx
    rw [hcyclic]
    exact h.marked x hx
  case unlinked =>
    intro x hx
    have e : x ≠ m := by
      rintro rfl
      rw [hself] at hx
      exact Status.noConfusion hx
    rw [hother x e] at hx
    rw [hkind x e]
    exact h.unlinked x hx
  case kept =>
    intro x hx
    rw [hkind x, h.kept x hx]
    rintro rfl
    rw [← h.status_kept hx, status, hleaf] at hx
    exact hx
  case linked =>
    intro x hx hx'
    by_cases e : x = m
    · rw [e, hself]
    · rw [hother x e] at hx' ⊢
      exact h.linked x hx hx'
  case answered =>
    intro x hx r hr
    rw [requested_eq_of_cyclic? (hcyclic x)] at hr
    by_cases e : x = m
    · rw [e, requested_of_leaf (by rw [isCyclic, cyclic?_eq, hleaf]; rfl)] at hr
      cases hr
    · rw [hother x e] at hx
      obtain ⟨n, hn, hn'⟩ := h.answered x hx r hr
      exact ⟨n, hn, isLinked_linkLeaf hm hleaf hf hn'⟩

end LeafLinked

theorem Searching.leaf (h : Searching journal start s t path) (hm : s.Has m)
    (hleaf : (s.module m).kind = .leaf .unlinked) {f : ModuleKind → ModuleKind}
    (hf : f (.leaf .unlinked) = .leaf .linked) :
    Searching journal start (s.updateKind m f) t path ∧
      s.Above journal t.stack (s.updateKind m f) ∧ ((s.updateKind m f).status m).IsLinked := by
  have hcyclic := cyclic?_linkLeaf hm hleaf hf
  have hlinked : ∀ x, (s.status x).IsLinked → ((s.updateKind m f).status x).IsLinked :=
    fun x hx => isLinked_linkLeaf hm hleaf hf hx
  refine ⟨⟨h.toInLink.leaf hm hleaf hf, ?_, fun x hx hp r hr => ?_⟩, ?_, ?_⟩
  · exact h.search.mono (fun _ _ e => e) (fun _ _ _ _ _ _ e => e)
      (fun x _ => visitOf_of_cyclic? (hcyclic x)) fun x _ => lowOf_of_cyclic? (hcyclic x)
  · rw [requested_eq_of_cyclic? (hcyclic x)] at hr
    exact (h.reached x hx hp r hr).mono (fun _ he => he) hlinked
      (fun y hy => .inr ⟨hy, visitOf_of_cyclic? (hcyclic y)⟩) (lowOf_of_cyclic? (hcyclic x)).le
  · exact ⟨fun x hx => by simpa using hx, fun x _ => hcyclic x, hlinked, fun _ he => he⟩
  · rw [status_linkLeaf_self hm hleaf hf]
    trivial

theorem linkLeaf_ends (hc : LinksThrough journal view host)
    (h : Searching journal start (view s) t path) (hm : s.Has m) (hleaf : s.cyclic? m = none)
    (hrun : linkLeaf host names m s = some (result, s')) :
    VisitEnds journal start (view s) t path m (view s') t result := by
  rw [linkLeaf, Linking.view_bind] at hrun
  have habove := Above.composes (κ := κ) journal t.stack
  cases hk : (s.module m).kind with
  | source r env c => simp [cyclic?_eq, hk, ModuleKind.cyclic?] at hleaf
  | foreign i c => simp [cyclic?_eq, hk, ModuleKind.cyclic?] at hleaf
  | leaf state =>
    have hk' := (hc.leaf_iff s m state).2 hk
    cases state with
    | unlinked =>
      simp only [hk] at hrun
      obtain ⟨_, s₁, h₁, h₂⟩ | ⟨e, h₁, rfl⟩ := throwing_bind.1 hrun
      · obtain ⟨x, h₁, -⟩ := Linking.ofAct_eq_some.1 h₁
        have hkeeps := hc.linkLeaf h₁
        have hm' : (view s).Has m := (hc.has s m).2 hm
        have hleaf' : ((view s₁).module m).kind = .leaf .unlinked := by
          rw [hkeeps.kind m hm' id, hk']
        have hends : ∀ f : ModuleKind → ModuleKind, f (.leaf .unlinked) = .leaf .linked →
            VisitEnds journal start (view s) t path m (view (s₁.updateKind m f)) t (.ok ()) := by
          intro f hf
          obtain ⟨hs, ha, hl⟩ :=
            (h.keeps hkeeps fun _ => False.elim).leaf (hkeeps.has m hm') hleaf' hf
          rw [← hc.updateLeaf s₁ m ((hc.leaf_iff s₁ m _).1 hleaf') hf] at hs ha hl
          have ha' := h.above_keeps hkeeps (fun _ => False.elim) t.stack (fun _ hx => hx)
            fun _ _ => id
          exact ⟨List.suffix_rfl, habove.trans ha' ha, .inl ⟨hs, .inl hl⟩⟩
        cases h₂
        exact hends _ rfl
      · obtain ⟨x, h₁, -⟩ := Linking.ofAct_eq_some.1 h₁
        exact (h.keeps (hc.linkLeaf h₁) fun _ => False.elim).toInLink
    | linked =>
      simp only [hk] at hrun
      cases hrun
      refine ⟨List.suffix_rfl, habove.refl _, .inl ⟨h, .inl ?_⟩⟩
      simp [status, hk', ModuleKind.status, Status.IsLinked]
    | evaluated p =>
      simp only [hk] at hrun
      cases hrun
      refine ⟨List.suffix_rfl, habove.refl _, .inl ⟨h, .inl ?_⟩⟩
      simp [status, hk', ModuleKind.status, Status.IsLinked]

theorem openLinking_ends (hc : LinksThrough journal view host)
    (ih : ∀ names n path s t result s' t', Searching journal start (view s) t path → s.Has n →
      visitLinking host depth names n t s = some ((result, t'), s') →
        VisitEnds journal start (view s) t path n (view s') t' result)
    (h : Searching journal start (view s) t path) (hm : s.Has m) {c : Cyclic}
    (hcyc : s.cyclic? m = some c) (hu : c.status = .unlinked)
    (hrun : (do
      openLinking m
      c.requested.forM (requestLinking host depth names m)
      LinkVisit.ofLinking (initializeModule host names m)
      closeLinking m : LinkVisit σ κ Unit) t s = some ((result, t'), s')) :
    VisitEnds journal start (view s) t path m (view s') t' result := by
  obtain ⟨hs, habove, hreq⟩ := h.enter ((hc.has s m).2 hm) ((hc.cyclic? s m).trans hcyc) hu rfl
  rw [← hc.updateCyclic] at hs habove hreq
  have hstart : Requesting journal start (view s) t.stack path m c.requested [] _ _ :=
    ⟨hs, List.suffix_rfl, habove, hreq, fun _ hr => nomatch hr⟩
  obtain ⟨_, t₁, s₁, h₁, h₂⟩ | ⟨e, h₁, -⟩ := visit_bind.1 hrun
  swap
  · cases h₁
  cases h₁
  obtain ⟨_, t₂, s₂, h₃, h₄⟩ | ⟨e, h₃, rfl⟩ := visit_bind.1 h₂
  swap
  · obtain ⟨he, -⟩ | ⟨e, -, h'⟩ := requestsLinking_ends hc ih c.requested _ _ _ hstart h₃
    · cases he
    · exact h'
  obtain ⟨-, hall⟩ | ⟨e, he, -⟩ := requestsLinking_ends hc ih c.requested _ _ _ hstart h₃
  swap
  · cases he
  obtain ⟨_, t₃, s₃, h₅, h₆⟩ | ⟨e, h₅, rfl⟩ := visit_bind.1 h₄
  · obtain ⟨rfl, h₇⟩ := LinkVisit.ofLinking_eq_some.1 h₅
    have hinit := hall.keeps (hc.module h₇) fun _ e => e
    obtain ⟨rfl, hv⟩ := closeLinking_ends hc.toLinkView hinit h₆
    exact hv
  · obtain ⟨rfl, h₇⟩ := LinkVisit.ofLinking_eq_some.1 h₅
    exact (hall.keeps (hc.module h₇) fun _ e => e).searching.toInLink

theorem visitLinking_ends (hc : LinksThrough journal view host) (depth : Nat) :
    ∀ names m path s t result s' t', Searching journal start (view s) t path → s.Has m →
      visitLinking host depth names m t s = some ((result, t'), s') →
        VisitEnds journal start (view s) t path m (view s') t' result := by
  induction depth with
  | zero =>
    intro names m path s t result s' t' h hm hrun
    obtain ⟨-, a, -, hrun⟩ := LinkVisit.ofRun_eq_some.1 hrun
    cases hrun
  | succ depth ih =>
    intro names m path s t result s' t' h hm hrun
    rw [visitLinking, LinkVisit.view_bind] at hrun
    cases hcyc : s.cyclic? m with
    | none =>
      simp only [hcyc] at hrun
      obtain ⟨rfl, hleaf⟩ := LinkVisit.ofLinking_eq_some.1 hrun
      exact linkLeaf_ends hc h hm hcyc hleaf
    | some c =>
      simp only [hcyc] at hrun
      by_cases hu : c.status = .unlinked
      · rw [if_pos hu] at hrun
        exact openLinking_ends hc ih h hm hcyc hu hrun
      · rw [if_neg hu] at hrun
        cases hrun
        refine ⟨List.suffix_rfl, (Above.composes journal _).refl _, .inl ⟨h, ?_⟩⟩
        have hcyc' := (hc.cyclic? s m).trans hcyc
        by_cases hl : c.status = .linking
        · exact .inr ((h.open_iff m).1 (by rw [status_of_cyclic? hcyc', hl]))
        · refine .inl ?_
          rw [status_of_cyclic? hcyc']
          revert hu hl
          cases c.status <;> simp [Status.IsLinked]

end ModuleGraph.Machine

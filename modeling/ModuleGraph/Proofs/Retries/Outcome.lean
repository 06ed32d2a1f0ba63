import ModuleGraph.Proofs.Retries.Initialization

/-! # A failed link that is tried again

A link that fails keeps the cycles that it has closed, takes back the others, and leaves namespaces
behind. All that it has made of a module is what the second resolver would have led to. So a second
try, which visits another part of the graph, ends where a link with the second resolver alone
would have ended. -/

namespace ModuleGraph

open Relation

variable {σ κ : Type} {journal : σ → Journal} {world : Machine σ κ → Prop}
variable {first second : Host σ κ} {base start s s' : Machine σ κ} {m n x y : ModuleId}
variable {l l' : Linkage}

/-! ## What the second host does with a module -/

/-- The host can link a module in all machines of the links, and makes `l` of it. -/
def Host.Readies (host : Host σ κ) (world : Machine σ κ → Prop) (base : Machine σ κ) (x : ModuleId)
    (l : Linkage) : Prop :=
  ∀ w, base.Founded world host w →
    (w.isCyclic x → ∀ path, ∃ w', initializeModule host path x w = some (.ok (), w') ∧
      w'.linkage x = l) ∧
    (w.isCyclic x = false → ∃ w', host.linkLeaf x w = some (.ok (), w'))

def Host.Leads (host : Host σ κ) (world : Machine σ κ → Prop) (base : Machine σ κ)
    (x y : ModuleId) : Prop :=
  base.status x = .unlinked ∧ ∃ request ∈ base.requested x, ∃ w w', base.Founded world host w ∧
    host.resolve (.module x) request w = some (.ok y, w')

def Host.Reaches (host : Host σ κ) (world : Machine σ κ → Prop) (base : Machine σ κ)
    (m x : ModuleId) : Prop := ReflTransGen (host.Leads world base) m x

/-- Nothing is in the way of a module: it can be linked, and all its requests have answers. -/
structure Host.Admits (host : Host σ κ) (world : Machine σ κ → Prop) (base : Machine σ κ)
    (x : ModuleId) : Prop where
  readies : ∃ l, host.Readies world base x l
  answers : ∀ request ∈ base.requested x, ∃ y, ∀ w, base.Founded world host w →
    ∃ w', host.resolve (.module x) request w = some (.ok y, w')

theorem Machine.linkage_of_leaf (h : s.isCyclic x = false) :
    s.linkage x = ⟨none, false, false⟩ := by
  rw [isCyclic_eq_false_iff, cyclic?_eq] at h
  rw [linkage]
  cases hk : (s.module x).kind with
  | leaf state => rfl
  | source r env c => rw [hk] at h; cases h
  | foreign i c => rw [hk] at h; cases h

/-- What becomes of a module that takes part in cycles is certain. -/
theorem Host.Readies.unique (hw : world base) (hc : base.isCyclic x)
    (h : second.Readies world base x l) (h' : second.Readies world base x l') : l' = l := by
  obtain ⟨w, hrun, rfl⟩ := (h base (.refl hw)).1 hc []
  obtain ⟨w', hrun', rfl⟩ := (h' base (.refl hw)).1 hc []
  cases hrun.symm.trans hrun'
  rfl

/-- A link of either host proceeds on the terms of the second one. -/
theorem Host.Replaces.linkTerms (h : second.Replaces first journal world) (hw : world base)
    (hstart : ∀ x, start.status x = .unlinked → base.status x = .unlinked) (m : ModuleId) :
    LinkTerms journal start (base.Founded world second) (second.Reaches world base m)
      (second.Readies world base) first where
  conduct := h.before.conduct
  resolve hg hrun := (h.asks.resolve _ _ _ _ _ hrun hg).1
  reaches {s w x request n s'} hg hgw hu hr hreq hrun := by
    obtain ⟨s₁, hrun'⟩ := h.resolve x request _ _ _ _ hg hg hrun
    rw [h.text.requested hw hgw.here] at hreq
    exact hr.tail ⟨hstart x hu, request, hreq, s, s₁, hg, hrun'⟩
  linkLeaf {s x r s'} hg hk hrun := by
    refine ⟨(Machine.Founded.within h.text (h.before.linkLeaf x) (h.before.conduct.linkLeaf x)
      s r s' hrun hg).1, fun hr w hgw => ?_⟩
    have hleaf : w.isCyclic x = false := by
      rw [h.text.isCyclic hg.here hgw.here, Machine.isCyclic, Machine.cyclic?_eq, hk]
      rfl
    refine ⟨fun hc => ?_, fun _ => ?_⟩
    · rw [hleaf] at hc
      cases hc
    · rw [hr] at hrun
      exact h.again.linkLeaf x _ _ _ _ hg.here hgw.here hrun
  initializes {path s x r s'} hg hm _ hc hrun := by
    refine ⟨(h.initializeModule_grounds path x s r s' hrun hg).1, fun hr w hgw => ?_⟩
    rw [hr] at hrun
    refine ⟨fun _ path' => h.initializeModule hg hgw hm hc hrun path', fun hleaf => ?_⟩
    rw [h.text.isCyclic hg.here hgw.here, hc] at hleaf
    cases hleaf
  update hg hf := hg.updateKind h.text (fun k => (hf k).text) fun k _ _ => (hf k).hasAwait

/-! ## A link that succeeds -/

/-- A leaf is linked if its hook returns, which is not called again. -/
theorem linkLeaf_ok {host : Host σ κ} (path : List String)
    (h : (s.module m).kind = .leaf .unlinked → ∃ s₁, host.linkLeaf m s = some (.ok (), s₁)) :
    ∃ s', linkLeaf host path m s = some (.ok (), s') := by
  rw [linkLeaf, Linking.view_bind]
  cases hk : (s.module m).kind with
  | source | foreign => exact ⟨s, rfl⟩
  | leaf state =>
    cases state with
    | unlinked =>
      obtain ⟨s₁, hhook⟩ := h hk
      exact ⟨_, throwing_bind.2 (.inl ⟨(), s₁, Linking.ofAct_eq_some.2 ⟨.ok (), hhook, rfl⟩, rfl⟩)⟩
    | linked | evaluated => exact ⟨s, rfl⟩

def Machine.unlinked (s : Machine σ κ) : Finset ℕ :=
  (Finset.range s.modules.size).filter fun i => s.status ⟨i⟩ = .unlinked

theorem Machine.unlinked_subset (hs : s'.modules.size = s.modules.size)
    (h : ∀ x, s.status x ≠ .unlinked → s'.status x ≠ .unlinked) : s'.unlinked ⊆ s.unlinked := by
  rw [unlinked, unlinked, hs]
  exact Finset.monotone_filter_right _ fun i _ hi => by_contra fun hn => h ⟨i⟩ hn hi

namespace Host.Replaces

variable (h : second.Replaces second journal world) (hw : world base)
variable (hadmits : ∀ x, second.Reaches world base m x → base.status x = .unlinked →
  second.Admits world base x)
variable {t : Traversal} {depth : ℕ} {names : List String}
include h

theorem card_unlinked_le {reached : ModuleId → Prop} {made : ModuleId → Linkage → Prop}
    (hg : base.Founded world second s) (hg' : base.Founded world second s')
    (hs : s.Tended reached made s') : s'.unlinked.card ≤ s.unlinked.card :=
  Finset.card_le_card (Machine.unlinked_subset (h.text.size hg.here hg'.here)
    fun x hx => (hs.marked x hx).1)

theorem card_unlinked_lt {reached : ModuleId → Prop} {made : ModuleId → Linkage → Prop}
    (hg : base.Founded world second s) (hg' : base.Founded world second s')
    (hs : s.Tended reached made s') (hx : s.Has x) (hu : s.status x = .unlinked)
    (hu' : s'.status x ≠ .unlinked) : s'.unlinked.card < s.unlinked.card := by
  refine Finset.card_lt_card (Finset.ssubset_iff_of_subset ?_ |>.2 ⟨x.index, ?_, fun hx' => ?_⟩)
  · exact Machine.unlinked_subset (h.text.size hg.here hg'.here) fun x hx => (hs.marked x hx).1
  · exact Finset.mem_filter.2 ⟨Finset.mem_range.2 hx, hu⟩
  · exact hu' (Finset.mem_filter.1 hx').2

include hw hadmits

/-- All requests of a module are answered, and the answers can be visited. -/
theorem requests_succeed
    (ih : ∀ names n t s, base.Founded world second s →
      base.Tended (second.Reaches world base m) (second.Readies world base) s → s.Has n →
      second.Reaches world base m n → s.unlinked.card < depth →
      ∃ t' s', visitLinking second depth names n t s = some ((.ok (), t'), s'))
    (hx : second.Reaches world base m x) (hu : base.status x = .unlinked)
    (names requests : List String) :
    ∀ t s, base.Founded world second s →
      base.Tended (second.Reaches world base m) (second.Readies world base) s →
      s.unlinked.card < depth → (∀ request ∈ requests, request ∈ base.requested x) →
      ∃ t' s', (requests.forM (Machine.requestLinking second depth names x)) t s =
        some ((.ok ⟨⟩, t'), s') := by
  have hterms := h.linkTerms hw (fun _ => id) m
  have hvisits := hterms.visitLinking_tends depth
  induction requests with
  | nil => exact fun t s _ _ _ _ => ⟨t, s, rfl⟩
  | cons request rest ihr =>
    intro t s hg hs hcard hreq
    obtain ⟨hreq, hrest⟩ := List.forall_mem_cons.1 hreq
    obtain ⟨y, hanswer⟩ := (hadmits x hx hu).answers request hreq
    obtain ⟨s₁, hresolve⟩ := hanswer s hg
    have hg₁ := hterms.resolve hg hresolve
    have hs₁ : s.Tended (second.Reaches world base m) (second.Readies world base) s₁ :=
      .of_keeps (h.before.conduct.resolve _ _ _ _ _ hresolve)
    have hcompose := Machine.Tended.composes (σ := σ) (κ := κ) (second.Reaches world base m)
      (second.Readies world base)
    obtain ⟨t₂, s₂, hvisit⟩ := ih (names ++ [request]) y t s₁ hg₁ (hcompose.trans hs hs₁)
      (h.before.conduct.answers hresolve).2 (hx.tail ⟨hu, request, hreq, s, s₁, hg, hresolve⟩)
      ((h.card_unlinked_le hg hg₁ hs₁).trans_lt hcard)
    have hround : Machine.requestLinking second depth names x request t s =
        some ((.ok ⟨⟩, t₂), reachOpen x y s₂) := by
      refine visit_bind.2 (.inl ⟨y, t, s₁, LinkVisit.ofLinking_eq_some.2 ⟨rfl, ?_⟩, ?_⟩)
      · exact Linking.ofAct_eq_some.2 ⟨.ok y, hresolve, rfl⟩
      · exact visit_bind.2 (.inl ⟨(), t₂, s₂, hvisit, rfl⟩)
    obtain ⟨hg₃, hs₃, -⟩ := hterms.request_tends hvisits hg hs hu hx (.refl hw) hreq names _ _ _
      hround
    obtain ⟨t', s', hloop⟩ := ihr t₂ _ hg₃ (hcompose.trans hs hs₃)
      ((h.card_unlinked_le hg hg₃ hs₃).trans_lt hcard) hrest
    exact ⟨t', s', visit_forM_cons.2 (.inl ⟨t₂, _, hround, hloop⟩)⟩

/-- A visit of a depth that exceeds the number of unlinked modules succeeds. -/
theorem visit_succeeds (depth : ℕ) : ∀ names n t s, base.Founded world second s →
    base.Tended (second.Reaches world base m) (second.Readies world base) s → s.Has n →
    second.Reaches world base m n → s.unlinked.card < depth →
    ∃ t' s', visitLinking second depth names n t s = some ((.ok (), t'), s') := by
  induction depth with
  | zero => exact fun _ _ _ _ _ _ _ _ hcard => absurd hcard (Nat.not_lt_zero _)
  | succ depth ih =>
    intro names n t s hg hs hn hr hcard
    have hterms := h.linkTerms hw (fun _ => id) m
    have hstart : s.status n = .unlinked → base.status n = .unlinked :=
      fun hu => by_contra fun hb => (hs.marked n hb).1 hu
    rw [visitLinking, LinkVisit.view_bind]
    cases hc : s.cyclic? n with
    | none =>
      -- A leaf that is unlinked needs its hook only.
      obtain ⟨s', hleaf⟩ : ∃ s', ModuleGraph.linkLeaf second names n s = some (.ok (), s') := by
        refine linkLeaf_ok names fun hk => ?_
        obtain ⟨l, hl⟩ := (hadmits n hr (hstart (by rw [Machine.status, hk]; rfl))).readies
        exact (hl s hg).2 (Machine.isCyclic_eq_false_iff.2 hc)
      exact ⟨t, s', LinkVisit.ofLinking_eq_some.2 ⟨rfl, hleaf⟩⟩
    | some c =>
      by_cases hu : c.status = .unlinked
      · have hunlinked := (Machine.status_of_cyclic? hc).trans hu
        have hbase := hstart hunlinked
        obtain ⟨l, hl⟩ := (hadmits n hr hbase).readies
        obtain ⟨hg₁, hs₁, hmarked⟩ := hterms.opened hg hn hr hc hu t.visits
        have hcompose := Machine.Tended.composes (σ := σ) (κ := κ) (second.Reaches world base m)
          (second.Readies world base)
        have hopen := Machine.status_of_cyclic? hmarked
        have hcard₁ := h.card_unlinked_lt hg hg₁ hs₁ hn hunlinked (by rw [hopen]; rintro ⟨⟩)
        have hreq := h.text.requested hg.here hw n
        rw [Machine.requested_of_cyclic? hc] at hreq
        obtain ⟨t₂, s₂, hloop⟩ := h.requests_succeed hw hadmits ih hr hbase names c.requested
          ⟨n :: t.stack, t.visits + 1⟩ _ hg₁ (hcompose.trans hs hs₁)
          (hcard₁.trans_le (Nat.le_of_lt_succ hcard)) fun request hr => hreq ▸ hr
        obtain ⟨hg₂, hs₂, -⟩ := hterms.requests_tend (hterms.visitLinking_tends depth) hbase hr
          (.refl hw) names c.requested _ _ hg₁ (hcompose.trans hs hs₁)
          (fun request hr => hreq ▸ hr) _ _ _ hloop
        obtain ⟨c₂, hc₂, -⟩ := Machine.cyclic?_of_linking (hs₂.opened n hopen)
        have hcyc : s₂.isCyclic n := by rw [Machine.isCyclic, hc₂]; rfl
        obtain ⟨s₃, hinit, -⟩ := (hl s₂ hg₂).1 hcyc names
        have hclose : ∃ t' s', closeLinking n t₂ s₃ = some ((.ok (), t'), s') := by
          rw [ExportGraph.closeLinking_apply]
          split <;> exact ⟨_, _, rfl⟩
        obtain ⟨t', s', hclose⟩ := hclose
        refine ⟨t', s', ?_⟩
        simp only [if_pos hu]
        refine visit_bind.2 (.inl ⟨(), _, _, openLinking_apply n t s, ?_⟩)
        refine visit_bind.2 (.inl ⟨⟨⟩, t₂, s₂, hloop, ?_⟩)
        exact visit_bind.2 (.inl ⟨(), t₂, s₃, LinkVisit.ofLinking_eq_some.2 ⟨rfl, hinit⟩, hclose⟩)
      · exact ⟨t, s, by simp only [if_neg hu]; rfl⟩

/-- A link of a module below which nothing is in the way succeeds. -/
theorem link_succeeds (hm : base.Has m) (hdepth : base.modules.size < second.depth) :
    ∃ s', second.link m base = some (.ok (), s') := by
  have hcard : base.unlinked.card < second.depth :=
    ((Finset.card_filter_le _ _).trans (Finset.card_range _).le).trans_lt hdepth
  obtain ⟨t', s', hvisit⟩ := h.visit_succeeds hw hadmits second.depth [] m ⟨[], 0⟩ base (.refl hw)
    ((Machine.Tended.composes _ _).refl base) hm .refl hcard
  exact ⟨s', Run.bind_eq_some.2 ⟨_, s', hvisit, rfl⟩⟩

end Host.Replaces

/-! ## The second try -/

/-- What the journal notes of modules that are not linked, the host would answer at any time. -/
def Host.Confirms (host : Host σ κ) (journal : σ → Journal) (world : Machine σ κ → Prop)
    (base : Machine σ κ) : Prop :=
  ∀ s x request n, world s → base.status x = .unlinked →
    Entry.resolved x request n ∈ journal s.host →
    ∀ w, world w → ∃ w', host.resolve (.module x) request w = some (.ok n, w')

section Retry

variable (ht : OneText world) (hconf : second.Confirms journal world base) (hw : world base)
variable (hw' : world s') (hrest : s'.AtRest journal)
include ht hconf hw hw' hrest

/-- Whatever a link has to visit is linked when the module that it was called for is. -/
theorem Machine.AtRest.linked_of_reaches (hm : (s'.status m).IsLinked)
    (hx : second.Reaches world base m x) : (s'.status x).IsLinked := by
  induction hx with
  | refl => exact hm
  | @tail y z _ hyz ih =>
    obtain ⟨hu, request, hreq, w, w', hg, hrun⟩ := hyz
    rw [← ht.requested hw hw' y] at hreq
    obtain ⟨n, hn, hl⟩ := hrest.answered y ih request hreq
    obtain ⟨w'', hrun'⟩ := hconf s' y request n hw' hu hn w hg.here
    cases hrun.symm.trans hrun'
    exact hl

/-- Nothing is in the way of a module that was linked once. -/
theorem Machine.AtRest.admits (hx : (s'.status x).IsLinked) (hu : base.status x = .unlinked)
    (hl : second.Readies world base x l) : second.Admits world base x := by
  refine ⟨⟨l, hl⟩, fun request hreq => ?_⟩
  rw [← ht.requested hw hw' x] at hreq
  obtain ⟨n, hn, -⟩ := hrest.answered x hx request hreq
  exact ⟨n, fun w hg => hconf s' x request n hw' hu hn w hg.here⟩

end Retry

/-- A machine that links of `m` have led to, some of them with another resolver. What was linked
before is as it was, what is newly linked is as the host would make it, and what a link of `m` does
not have to visit is untouched. -/
structure Host.Brings (host : Host σ κ) (journal : σ → Journal) (world : Machine σ κ → Prop)
    (base : Machine σ κ) (m : ModuleId) (s : Machine σ κ) : Prop where
  grounded : base.Founded world host s
  rest : s.AtRest journal
  kept : ∀ x, (base.status x).IsLinked → (s.module x).kind = (base.module x).kind
  made : ∀ x, base.status x = .unlinked → (s.status x).IsLinked →
    s.status x = .linked ∧ host.Readies world base x (s.linkage x)
  untouched : ∀ x, base.Has x → ¬host.Reaches world base m x →
    s.status x = base.status x ∧ s.linkage x = base.linkage x

namespace Host.Brings

theorem refl (hs : base.AtRest journal) (hw : world base) :
    second.Brings journal world base m base where
  grounded := .refl hw
  rest := hs
  kept _ _ := rfl
  made x hu hl := by
    rw [hu] at hl
    exact hl.elim
  untouched _ _ _ := ⟨rfl, rfl⟩

/-- Each link of either host adds to what was made before. -/
theorem link {result : Except LinkError Unit} (h : second.Replaces first journal world)
    (hbase : base.AtRest journal) (hs : second.Brings journal world base m s) (hw : world base)
    (hm : base.Has m) (hrun : first.link m s = some (result, s')) :
    second.Brings journal world base m s' ∧ (result = .ok () → (s'.status m).IsLinked) := by
  have hhas : ∀ x, base.Has x → s.Has x := fun x => (h.text.has hw hs.grounded.here).2
  have hstart : ∀ x, s.status x = .unlinked → base.status x = .unlinked := fun x hx => by
    refine (hbase.unlinked x fun hl => ?_).status_eq
    rw [Machine.status, ← hs.kept x hl, ← Machine.status, hx] at hl
    exact hl
  obtain ⟨hin, hok⟩ := Machine.link_ends h.before.conduct hs.rest (hhas m hm) hrun
  obtain ⟨hg, huntouched, hlinked⟩ :=
    (h.linkTerms hw hstart m).link hs.grounded hs.rest (hhas m hm) .refl hrun
  refine ⟨⟨hg, hin.atRest, fun x hx => ?_, fun x hu hx => ?_, fun x hx hr => ?_⟩, hok⟩
  · have hk := hs.kept x hx
    refine (hin.kept x ?_).trans hk
    rwa [Machine.status, hk]
  · by_cases hl : (s.status x).IsLinked
    · rw [Machine.status, Machine.linkage, hin.kept x hl]
      exact hs.made x hu hl
    · exact ⟨hin.linked x hl hx, (hlinked x hx).resolve_left hl⟩
  · obtain ⟨hstatus, hlinkage⟩ := hs.untouched x hx hr
    obtain ⟨hstatus', hlinkage'⟩ := huntouched x (hhas x hx) hr
    exact ⟨hstatus'.trans hstatus, hlinkage'.trans hlinkage⟩

/-- Where links of `m` lead to when they have linked it is certain. -/
theorem agree (ht : OneText world) (hconf : second.Confirms journal world base)
    (hbase : base.AtRest journal) (hw : world base) (hs : second.Brings journal world base m s)
    (hm : (s.status m).IsLinked) (hs' : second.Brings journal world base m s')
    (hm' : (s'.status m).IsLinked) (hx : base.Has x) :
    s'.status x = s.status x ∧ s'.linkage x = s.linkage x := by
  by_cases hr : second.Reaches world base m x
  · have hl := hs.rest.linked_of_reaches ht hconf hw hs.grounded.here hm hr
    have hl' := hs'.rest.linked_of_reaches ht hconf hw hs'.grounded.here hm' hr
    by_cases hb : (base.status x).IsLinked
    · rw [Machine.status, Machine.linkage, hs'.kept x hb, Machine.status, Machine.linkage,
        hs.kept x hb]
      exact ⟨rfl, rfl⟩
    · have hu := (hbase.unlinked x hb).status_eq
      obtain ⟨hstatus, hready⟩ := hs.made x hu hl
      obtain ⟨hstatus', hready'⟩ := hs'.made x hu hl'
      refine ⟨hstatus'.trans hstatus.symm, ?_⟩
      by_cases hc : base.isCyclic x
      · exact hready.unique hw hc hready'
      · rw [Bool.not_eq_true] at hc
        rw [Machine.linkage_of_leaf ((ht.isCyclic hw hs'.grounded.here x).trans hc),
          Machine.linkage_of_leaf ((ht.isCyclic hw hs.grounded.here x).trans hc)]
  · obtain ⟨hstatus, hlinkage⟩ := hs.untouched x hx hr
    obtain ⟨hstatus', hlinkage'⟩ := hs'.untouched x hx hr
    exact ⟨hstatus'.trans hstatus.symm, hlinkage'.trans hlinkage.symm⟩

end Host.Brings

/-- A link that fails can be tried again with a resolver that answers wherever the first one did. If
the second try succeeds, each module ends in the stage, with the environment and the instance, and
with the knowledge whether it awaits that a link with the second resolver alone leads to; and that
link succeeds too. The first failure may strike at any point. -/
theorem retry_ends_like_fresh_link {s₁ s₂ : Machine σ κ} {e : LinkError}
    (h : second.Replaces first journal world) (hconf : second.Confirms journal world s)
    (hs : s.AtRest journal) (hw : world s) (hm : s.Has m) (hdepth : s.modules.size < second.depth)
    (hfail : first.link m s = some (.error e, s₁))
    (hretry : second.link m s₁ = some (.ok (), s₂)) :
    ∃ s', second.link m s = some (.ok (), s') ∧
      ∀ x, s.Has x → s'.status x = s₂.status x ∧ s'.linkage x = s₂.linkage x := by
  have hrefl : second.Brings journal world s m s := .refl hs hw
  obtain ⟨h₁, -⟩ := hrefl.link h hs hw hm hfail
  obtain ⟨h₂, hm₂⟩ := h₁.link h.self hs hw hm hretry
  have hadmits : ∀ x, second.Reaches world s m x → s.status x = .unlinked →
      second.Admits world s x := fun x hx hu => by
    have hl := h₂.rest.linked_of_reaches h.text hconf hw h₂.grounded.here (hm₂ rfl) hx
    exact h₂.rest.admits h.text hconf hw h₂.grounded.here hl hu (h₂.made x hu hl).2
  obtain ⟨s', hfresh⟩ := h.self.link_succeeds hw hadmits hm hdepth
  obtain ⟨h', hm'⟩ := hrefl.link h.self hs hw hm hfresh
  exact ⟨s', hfresh, fun x hx => h₂.agree h.text hconf hs hw (hm₂ rfl) h' (hm' rfl) hx⟩

/-! ## Two plans -/

namespace Plan

variable {first second : Plan} {base : Machine Journal ModuleId}

def Covers (second first : Plan) : Prop :=
  ∀ m request n, first.target m request = some n → second.target m request = some n

theorem Covers.refl (plan : Plan) : plan.Covers plan := fun _ _ _ => id

theorem Covers.made (h : second.Covers first) {m n : ModuleId} {request : String} {size : Nat}
    (hn : (first.target m request).filter (·.index < size) = some n) :
    (second.target m request).filter (·.index < size) = some n := by
  obtain ⟨ht, hlt⟩ := Option.filter_eq_some_iff.1 hn
  exact Option.filter_eq_some_iff.2 ⟨h _ _ _ ht, hlt⟩

theorem answer_of_made {plan : Plan} {s : Machine Journal ModuleId} {m n : ModuleId}
    {request : String} (h : (plan.target m request).filter (·.index < s.modules.size) = some n) :
    plan.answer m request s = some (.ok n, s.setHost (s.host ++ [.resolved m request n])) := by
  rw [answer, Act.view_bind, h]
  rfl

theorem made_of_answer {plan : Plan} {s s' : Machine Journal ModuleId} {m n : ModuleId}
    {request : String} (h : plan.answer m request s = some (.ok n, s')) :
    (plan.target m request).filter (·.index < s.modules.size) = some n := by
  cases hmade : (plan.target m request).filter (·.index < s.modules.size) with
  | none =>
    rw [answer, Act.view_bind, hmade] at h
    cases h
  | some n' =>
    rw [answer_of_made hmade] at h
    cases h
    rfl

theorem Covers.redone (h : second.Covers first) (m : ModuleId) (request : String) :
    Redone (second.Shows base) (first.answer m request) (second.answer m request) := by
  intro s s' n s₁ hs hs' hrun
  have hmade := made_of_answer hrun
  rw [hs.size, ← hs'.size] at hmade
  exact ⟨_, answer_of_made (h.made hmade)⟩

theorem Covers.spares (h : second.Covers first) (m : ModuleId) (request : String) :
    Within (Machine.SparesKeys (second.Shows base)) (first.answer m request) := by
  intro s r s' hrun
  cases hmade : (first.target m request).filter (·.index < s.modules.size) with
  | some n =>
    rw [answer_of_made hmade] at hrun
    cases hrun
    exact second.spares_answer base m request s _ _ (answer_of_made (h.made hmade))
  | none =>
    rw [answer, Act.view_bind, hmade] at hrun
    have hc := Machine.SparesKeys.composes (second.Shows base)
    refine Within.bind hc (fun s r s' e => ?_) (fun e => ?_) s r s' hrun
    · cases e
      exact spares_beside rfl rfl
    · exact Within.bind hc (spares_note fun _ _ _ _ e => by cases e) fun _ => Within.throw hc e

theorem Covers.linksIn (h : second.Covers first) (names : ModuleId → List String) (depth : Nat) :
    (first.exporting names depth).LinksIn id (second.Shows base) := by
  have hc := Machine.SparesKeys.composes (second.Shows base)
  exact
    { conduct := first.exporting_linkConduct names depth
      lookups :=
        { toComposes := hc
          resolve := h.spares
          exportedNames := fun _ => Within.pure hc _
          resolveExport := fun _ _ _ => Within.pure hc _ }
      linkLeaf := fun _ => Within.pure hc _
      initializeForeign := fun _ => Within.pure hc _
      instantiateForeign := fun _ => Within.pure hc _
      prepare := fun _ => Within.pure hc _
      awaits := fun hrun => by cases hrun; rfl }

theorem Covers.extends (h : second.Covers first) (names : ModuleId → List String) (depth : Nat) :
    (second.exporting names depth).Extends (second.Shows base) (first.exporting names depth) where
  depth := rfl
  resolve := h.redone
  exportedNames _ := Redone.pure _
  resolveExport _ _ _ := Redone.pure _
  linkLeaf _ := Redone.pure _
  initializeForeign _ := Redone.pure _
  instantiateForeign _ := Redone.pure _
  prepare _ _ he hrun := by
    cases hrun
    exact ⟨_, rfl, he⟩

theorem oneText_shows (plan : Plan) (base : Machine Journal ModuleId) :
    OneText (plan.Shows base) where
  size h h' := h'.size.trans h.size.symm
  text h h' m := ⟨(h'.text m).1.trans (h.text m).1.symm, (h'.text m).2.trans (h.text m).2.symm⟩
  update m _ hf hs := (plan.stays_updateModule base _ m hf hs).1

/-- A plan may take the place of one that it covers. -/
theorem Covers.replaces (h : second.Covers first) (names : ModuleId → List String) (depth : Nat) :
    (second.exporting names depth).Replaces (first.exporting names depth) id
      (second.Shows base) where
  text := second.oneText_shows base
  before := h.linksIn names depth
  after := (Covers.refl second).linksIn names depth
  again := h.extends names depth
  steady := (Covers.refl second).extends names depth

theorem confirms (plan : Plan) (names : ModuleId → List String) (depth : Nat) :
    (plan.exporting names depth).Confirms id (plan.Shows base) base := by
  intro s x request n hs _ hn w hw
  have hmade := hs.noted hn
  rw [← hw.size] at hmade
  exact ⟨_, answer_of_made hmade⟩

end Plan

/-! ## A leaf that is missing at first -/

namespace Missing

/-- Module `0` imports `x` from module `1` and requests a leaf. -/
def answering : Plan where
  target _ request := some (if request = "1" then ⟨1⟩ else ⟨2⟩)
  body _ := .completes

def refusing : Plan where
  target _ request := if request = "1" then some ⟨1⟩ else none
  body _ := .completes

def made (record : SourceRecord) : Module :=
  .new (.source record none (.new record.requested record.hasAwait)) none

def modules : Machine Journal ModuleId :=
  { Machine.initial [] with
    modules := #[
      made { (default : SourceRecord) with
        requested := ["1", "leaf"], imports := [⟨"1", some "x", "y"⟩], varNames := ["z"] },
      made { (default : SourceRecord) with
        localExports := [⟨"x", "x"⟩], lexical := [("x", .let)] },
      .new (.leaf .unlinked) none] }

def names (_ : ModuleId) : List String := []

theorem covers : answering.Covers refusing := by
  intro m request n h
  change (if request = "1" then some (⟨1⟩ : ModuleId) else none) = some n at h
  split at h
  · rename_i hr
    cases h
    exact congrArg some (if_pos hr)
  · cases h

theorem atRest : modules.AtRest id := by
  refine (Machine.atRest_initial []).advance ⟨fun m hm => absurd hm (Nat.not_lt_zero _),
    fun m hm => ?_, fun m _ => ?_, [], rfl⟩
  · rw [Machine.status, (Machine.isNew_of_not_has (Nat.not_lt_zero _)).isUnlinked.status_eq] at hm
    exact hm.elim
  · obtain ⟨_ | _ | _ | n⟩ := m
    · exact ⟨rfl, rfl⟩
    · exact ⟨rfl, rfl⟩
    · exact rfl
    · exact Machine.isNew_of_not_has (by simp [Machine.Has, modules])

/-- The machine that the failed link leaves, in which module `1` is linked. -/
def refused : Machine Journal ModuleId :=
  (((refusing.exporting names 9).link ⟨0⟩ modules).get (by rfl)).2

def retried : Machine Journal ModuleId :=
  (((answering.exporting names 9).link ⟨0⟩ refused).get (by rfl)).2

theorem link_refused : ∃ e,
    (refusing.exporting names 9).link ⟨0⟩ modules = some (.error e, refused) := ⟨_, by rfl⟩

theorem link_retried :
    (answering.exporting names 9).link ⟨0⟩ refused = some (.ok (), retried) := by rfl

end Missing

open Missing in
/-- The leaf is found in the second try, which does not visit module `1` again. -/
theorem retry_ends_like_fresh_link_missing :
    (refused.status ⟨1⟩ = .linked ∧ refused.status ⟨0⟩ = .unlinked) ∧
    (∃ e, (refusing.exporting names 9).link ⟨0⟩ modules = some (.error e, refused)) ∧
    (answering.exporting names 9).link ⟨0⟩ refused = some (.ok (), retried) ∧
    ∃ s', (answering.exporting names 9).link ⟨0⟩ modules = some (.ok (), s') ∧
      ∀ x, modules.Has x → s'.status x = retried.status x ∧ s'.linkage x = retried.linkage x := by
  refine ⟨⟨by rfl, by rfl⟩, link_refused, link_retried, ?_⟩
  obtain ⟨e, hfail⟩ := link_refused
  exact retry_ends_like_fresh_link (covers.replaces names 9) (answering.confirms names 9) atRest
    (answering.shows_self rfl) (by decide : 0 < 3) (by decide : 3 < 9) hfail link_retried

end ModuleGraph

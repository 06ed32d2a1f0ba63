import ModuleGraph.Proofs.Exports.Checks
import ModuleGraph.Proofs.Linking.Contract

/-! # The visits of a link in a graph

A visit has a result, and it links sound modules only: each module is checked when all its requests
were visited, and is linked later. If everything below the visited module is sound, the visit
succeeds. -/

namespace ModuleGraph

open Relation

variable {σ κ : Type}

/-! ## Stages -/

namespace Machine

variable {journal : σ → Journal} {free : ModuleId → Prop} {s s' : Machine σ κ} {m x : ModuleId}

theorem Keeps.status_eq (h : s.Keeps journal free s')
    (hfree : ∀ x, free x → ∃ c, s.cyclic? x = some c) (hx : s.Has x) :
    s'.status x = s.status x := by
  by_cases hf : free x
  · obtain ⟨c, hc⟩ := hfree x hf
    obtain ⟨w, hw⟩ := h.cyclic x hx hf
    rw [hc, Option.map_some] at hw
    rw [status_of_cyclic? hw, status_of_cyclic? hc]
  · rw [status, h.kind x hx hf, status]

theorem cyclic?_of_record? {record : SourceRecord} (h : s.record? m = some record) :
    ∃ c, s.cyclic? m = some c := by
  rw [record?] at h
  rw [cyclic?]
  cases hk : (s.module m).kind with
  | source r env c => exact ⟨c, rfl⟩
  | foreign i c => rw [hk] at h; cases h
  | leaf state => rw [hk] at h; cases h

/-- An update of one module that leaves its stage or leads to a certain one. -/
theorem status_updateKind (s : Machine σ κ) (m x : ModuleId) {f : ModuleKind → ModuleKind}
    {status : Status} (hf : ∀ k, (f k).status = k.status ∨ (f k).status = status) :
    (s.updateKind m f).status x = s.status x ∨ x = m ∧ (s.updateKind m f).status x = status := by
  by_cases hm : s.Has m
  · rw [Machine.status, kind_updateKind f hm]
    split
    · rename_i e
      exact (hf _).imp id fun h => ⟨e, h⟩
    · exact .inl rfl
  · rw [updateKind, updateModule_of_not_has _ hm]
    exact .inl rfl

theorem status_setStatus (s : Machine σ κ) (m x : ModuleId) (status : Status) :
    (s.setStatus m status).status x = s.status x ∨
      x = m ∧ (s.setStatus m status).status x = status := by
  refine status_updateKind s m x fun k => ?_
  cases k with
  | source r env c => exact .inr rfl
  | foreign i c => exact .inr rfl
  | leaf state => exact .inl rfl

theorem status_linked (cycle : List ModuleId) (s : Machine σ κ) (x : ModuleId) :
    (cycle.foldl (fun s x => s.setStatus x .linked) s).status x = s.status x ∨
      x ∈ cycle ∧ (cycle.foldl (fun s x => s.setStatus x .linked) s).status x = .linked := by
  induction cycle generalizing s with
  | nil => exact .inl rfl
  | cons y rest ih =>
    rw [List.foldl_cons]
    rcases ih (s.setStatus y .linked) with h | ⟨hx, h⟩
    · rw [h]
      rcases status_setStatus s y x .linked with h | ⟨rfl, h⟩
      · exact .inl h
      · exact .inr ⟨List.mem_cons_self .., h⟩
    · exact .inr ⟨List.mem_cons_of_mem _ hx, h⟩

theorem status_reachOpen (s : Machine σ κ) (m n x : ModuleId) :
    (reachOpen m n s).status x = s.status x := by
  rw [reachOpen]
  split
  · split
    · exact status_updateCyclic fun _ => rfl
    · rfl
  · rfl

end Machine

namespace ExportGraph

variable {G : ExportGraph} {journal : σ → Journal} {world : Machine σ κ → Prop} {host : Host σ κ}
variable {free : ModuleId → Prop} {s s₁ s' : Machine σ κ} {t t₁ t' : Traversal} {m n x : ModuleId}
variable {record : SourceRecord} {path names : List String} {depth : Nat} {A B good : Prop}

/-- What a part of a link leaves: no module is unlinked by it, and what it links is sound. -/
structure Checked (G : ExportGraph) (s s' : Machine σ κ) : Prop where
  marked : ∀ x, s.status x ≠ .unlinked → s'.status x ≠ .unlinked
  linked : ∀ x, (s'.status x).IsLinked → (s.status x).IsLinked ∨ G.Sound x

namespace Checked

theorem composes (G : ExportGraph) : Composes (Checked (σ := σ) (κ := κ) G) where
  refl _ := ⟨fun _ => id, fun _ => .inl⟩
  trans h h' :=
    ⟨fun x hx => h'.marked x (h.marked x hx), fun x hx => (h'.linked x hx).elim (h.linked x) .inr⟩

theorem of_status (h : ∀ x, s'.status x = s.status x ∨ G.Sound x ∧ s'.status x ≠ .unlinked) :
    G.Checked s s' where
  marked x hx := by
    rcases h x with e | ⟨-, e⟩
    · rwa [e]
    · exact e
  linked x hx := by
    rcases h x with e | ⟨e, -⟩
    · exact .inl (e ▸ hx)
    · exact .inr e

theorem of_keeps (h : s.Keeps journal free s')
    (hfree : ∀ x, free x → s.Has x ∧ ∃ c, s.cyclic? x = some c) : G.Checked s s' := by
  refine .of_status fun x => .inl ?_
  by_cases hx : s.Has x
  · exact h.status_eq (fun x hf => (hfree x hf).2) hx
  · have hold : s.status x = .unlinked := (Machine.isNew_of_not_has hx).isUnlinked.status_eq
    have hnew : s'.status x = .unlinked :=
      (h.made x hx fun hf => hx (hfree x hf).1).isUnlinked.status_eq
    rw [hold, hnew]

theorem of_lookup {ε α : Type} {x : ExceptT ε (Run σ κ) α}
    (hx : Within (Machine.Keeps journal fun _ => False) x) : Within G.Checked x :=
  fun s r s' hrun => .of_keeps (hx s r s' hrun) fun _ hf => hf.elim

end Checked

def unlinked (G : ExportGraph) (s : Machine σ κ) : Finset ModuleId :=
  G.modules.filter (s.status · = .unlinked)

theorem Checked.card_unlinked_le (h : G.Checked s s') :
    (G.unlinked s').card ≤ (G.unlinked s).card :=
  Finset.card_le_card (Finset.monotone_filter_right _ fun x _ hx =>
    by_contra fun hn => h.marked x hn hx)

theorem Checked.card_unlinked_lt (h : G.Checked s s') (hm : m ∈ G.modules)
    (hu : s.status m = .unlinked) (hu' : s'.status m ≠ .unlinked) :
    (G.unlinked s').card < (G.unlinked s).card := by
  refine Finset.card_lt_card (Finset.ssubset_iff_of_subset ?_ |>.2 ⟨m, ?_, ?_⟩)
  · exact Finset.monotone_filter_right _ fun x _ hx => by_contra fun hn => h.marked x hn hx
  · exact Finset.mem_filter.2 ⟨hm, hu⟩
  · exact fun hm => hu' (Finset.mem_filter.1 hm).2

/-! ## Parts of a visit -/

/-- A part of a visit has a result. It puts sound modules on the stack if it succeeds, and then `A`
holds; it succeeds if `A` holds and all is `good`. -/
def Visits (G : ExportGraph) (world : Machine σ κ → Prop) (good A : Prop) (v : LinkVisit σ κ Unit)
    (t : Traversal) (s : Machine σ κ) : Prop :=
  ∃ r t' s', v t s = some ((r, t'), s') ∧ (world s' ∧ ∀ m, s.Has m → s'.Has m) ∧ G.Checked s s' ∧
    (r = .ok () → ∃ added, t'.stack = added ++ t.stack ∧ ∀ x ∈ added, G.Sound x) ∧ Passes good A r

namespace Visits

variable {v : LinkVisit σ κ Unit} {f : Unit → LinkVisit σ κ Unit}

protected theorem pure (hw : world s) (ha : A) : G.Visits world good A (pure ()) t s :=
  ⟨_, t, s, rfl, ⟨hw, fun _ => id⟩, (Checked.composes G).refl s,
    fun _ => ⟨[], rfl, fun _ hx => nomatch hx⟩, .ok ha⟩

protected theorem bind (hv : G.Visits world good A v t s)
    (hf : ∀ t₁ s₁, world s₁ → (∀ m, s.Has m → s₁.Has m) → G.Checked s s₁ → A →
      G.Visits world good B (f ()) t₁ s₁) :
    G.Visits world good (A ∧ B) (v >>= f) t s := by
  obtain ⟨r, t₁, s₁, hrun, ⟨hw, hgrow⟩, hc, hstack, hp⟩ := hv
  cases r with
  | error e =>
    exact ⟨.error e, t₁, s₁, visit_bind.2 (.inr ⟨e, hrun, rfl⟩), ⟨hw, hgrow⟩, hc,
      fun h => (nomatch h), .error fun hg hab => hp.not_of_error hg hab.1⟩
  | ok u =>
    have ha := hp.1 ⟨(), rfl⟩
    obtain ⟨r, t', s', hrun', ⟨hw', hgrow'⟩, hc', hstack', hp'⟩ := hf t₁ s₁ hw hgrow hc ha
    refine ⟨r, t', s', visit_bind.2 (.inl ⟨(), t₁, s₁, hrun, hrun'⟩),
      ⟨hw', fun m hm => hgrow' m (hgrow m hm)⟩, (Checked.composes G).trans hc hc', fun hr => ?_,
      hp'.congr ⟨fun hb => ⟨ha, hb⟩, fun hab => hab.2⟩⟩
    obtain ⟨added, hadded, hsound⟩ := hstack rfl
    obtain ⟨added', hadded', hsound'⟩ := hstack' hr
    refine ⟨added' ++ added, by rw [hadded', hadded, List.append_assoc], fun x hx => ?_⟩
    exact (List.mem_append.1 hx).elim (hsound' x) (hsound x)

theorem congr (hv : G.Visits world good A v t s) (hab : A ↔ B) : G.Visits world good B v t s := by
  obtain ⟨r, t', s', hrun, hs, hc, hstack, hp⟩ := hv
  exact ⟨r, t', s', hrun, hs, hc, hstack, hp.congr hab⟩

theorem of_eq {v' : LinkVisit σ κ Unit} (hv : G.Visits world good A v' t s)
    (e : v t s = v' t s) : G.Visits world good A v t s := by
  obtain ⟨r, t', s', hrun, hpost⟩ := hv
  exact ⟨r, t', s', e.trans hrun, hpost⟩

theorem update {f : Machine σ κ → Machine σ κ} (hw : world s)
    (hf : Machine.Stays world s (f s)) (hc : G.Checked s (f s)) (ha : A) :
    G.Visits world good A (LinkVisit.update f) t s :=
  ⟨_, t, _, rfl, hf hw, hc, fun _ => ⟨[], rfl, fun _ hx => nomatch hx⟩, .ok ha⟩

theorem ofLinking {x : Linking σ κ Unit} {clear : Prop}
    (hx : Returns world x s fun r _ => Passes clear A r) (hgood : good → clear)
    (hc : Within G.Checked x) : G.Visits world good A (LinkVisit.ofLinking x) t s := by
  obtain ⟨r, s', hrun, hs, hp⟩ := hx
  exact ⟨r, t, s', LinkVisit.ofLinking_eq_some.2 ⟨rfl, hrun⟩, hs, hc _ _ _ hrun,
    fun _ => ⟨[], rfl, fun _ hx => nomatch hx⟩, hp.1, fun hg => hp.2 (hgood hg)⟩

end Visits

/-- What is on the stack above a module when its cycle is closed. -/
theorem close_split {P : ModuleId → Prop} (hm : P m) (base : List ModuleId) (visits : Nat)
    (added : List ModuleId) (h : ∀ x ∈ added, P x) :
    ∃ rest, ((⟨added ++ m :: base, visits⟩ : Traversal).close m).2.stack = rest ++ base ∧
      (∀ x ∈ rest, P x) ∧ ∀ x ∈ ((⟨added ++ m :: base, visits⟩ : Traversal).close m).1, P x := by
  induction added with
  | nil =>
    exact ⟨[], by simp [Traversal.close], fun _ hx => (nomatch hx), by simp [Traversal.close, hm]⟩
  | cons y added ih =>
    obtain ⟨hy, hadded⟩ := List.forall_mem_cons.1 h
    by_cases e : y = m
    · subst e
      refine ⟨added ++ [y], by simp [Traversal.close],
        fun x hx => ?_, by simp [Traversal.close, hy]⟩
      rcases List.mem_append.1 hx with hx | hx
      · exact hadded x hx
      · rwa [List.mem_singleton.1 hx]
    · obtain ⟨rest, hrest, hp, hcycle⟩ := ih hadded
      refine ⟨rest, ?_, hp, ?_⟩
      · simpa [Traversal.close, e] using hrest
      · simpa [Traversal.close, e, hy] using hcycle

theorem closeLinking_apply (m : ModuleId) (t : Traversal) (s : Machine σ κ) :
    closeLinking m t s =
      if (s.cyclic m).isRoot then
        some ((.ok (), (t.close m).2),
          (t.close m).1.foldl (fun s x => s.setStatus x .linked) s)
      else some ((.ok (), t), s) := by
  rw [closeLinking, LinkVisit.view_bind]
  split <;> rfl

def SoundBelow (G : ExportGraph) (m : ModuleId) : Prop :=
  ∀ n, ReflTransGen G.Requests m n → G.Sound n

theorem SoundBelow.of_requests (h : G.SoundBelow m) (hn : ReflTransGen G.Requests m n) :
    G.SoundBelow n := fun x hx => h x (hn.trans hx)

section Links

variable (h : G.Links journal world host) (hwf : G.WellFormed) (hdepth : G.bound < host.depth)
include h

theorem Links.updateCyclic (s : Machine σ κ) (m : ModuleId) {f : Cyclic → Cyclic}
    (hf : ∀ c, (f c).requested = c.requested) :
    Machine.Stays world s (s.updateCyclic m f) :=
  h.text s m fun x => x.kind.sameText_updateCyclic hf

theorem Links.foldl {g : Machine σ κ → ModuleId → Machine σ κ}
    (hg : ∀ s x, Machine.Stays world s (g s x)) (xs : List ModuleId) (s : Machine σ κ) :
    Machine.Stays world s (xs.foldl g s) := h.serves.toComposes.foldl hg xs s

theorem Links.reachOpen (s : Machine σ κ) (m n : ModuleId) :
    Machine.Stays world s (reachOpen m n s) := by
  rw [ModuleGraph.reachOpen]
  split
  · split
    · exact h.updateCyclic s m fun _ => rfl
    · exact h.serves.refl s
  · exact h.serves.refl s

theorem request_visits
    (ih : ∀ names n t s, world s → n ∈ G.modules → s.Has n → (G.unlinked s).card < depth →
      G.Visits world (G.SoundBelow n) True (visitLinking host depth names n) t s)
    (hs : G.source m = some record) {request : String} (hr : request ∈ record.requested)
    (hw : world s) (hm : m ∈ G.modules) (hh : s.Has m) (hcard : (G.unlinked s).card < depth) :
    G.Visits world (G.SoundBelow m) (∃ n, G.target m request = some n)
      (Machine.requestLinking host depth names m request) t s := by
  obtain ⟨r, s₁, hrun, ⟨hw₁, hgrow₁⟩, hpost⟩ :=
    resolveRequest_returns h.serves hw hm hh names request
  have hc₁ : G.Checked s s₁ :=
    .of_lookup (h.conduct.looksUp.asks.resolveRequest names m request) s r s₁ hrun
  have hlift : LinkVisit.ofLinking (resolveRequest host names m request) t s = some ((r, t), s₁) :=
    LinkVisit.ofLinking_eq_some.2 ⟨rfl, hrun⟩
  cases hpost with
  | @answered n ht hn =>
    have hbelow : ReflTransGen G.Requests m n := .single ⟨record, hs, request, hr, ht⟩
    have hreach : ∀ t₂ s₂, world s₂ →
        G.Visits world (G.SoundBelow n) True (LinkVisit.update (reachOpen m n)) t₂ s₂ :=
      fun t₂ s₂ hw₂ => .update hw₂ (h.reachOpen s₂ m n)
        (.of_status fun x => .inl (Machine.status_reachOpen s₂ m n x)) trivial
    have hvisit := ih (names ++ [request]) n t s₁ hw₁ (G.closed hm ht) hn
      (hc₁.card_unlinked_le.trans_lt hcard)
    obtain ⟨r, t', s', hrun', ⟨hw', hgrow'⟩, hc', hstack, hp⟩ :=
      hvisit.bind (f := fun _ => LinkVisit.update (reachOpen m n)) fun t₂ s₂ hw₂ _ _ _ =>
        hreach t₂ s₂ hw₂
    refine ⟨r, t', s', visit_bind.2 (.inl ⟨n, t, s₁, hlift, hrun'⟩),
      ⟨hw', fun x hx => hgrow' x (hgrow₁ x hx)⟩, (Checked.composes G).trans hc₁ hc', hstack,
      fun _ => ⟨n, ht⟩, fun hg _ => hp.2 (hg.of_requests hbelow) ⟨trivial, trivial⟩⟩
  | refused ht =>
    refine ⟨_, t, s₁, visit_bind.2 (.inr ⟨_, hlift, rfl⟩), ⟨hw₁, hgrow₁⟩, hc₁,
      fun hok => (nomatch hok), .error fun _ ⟨n, hn⟩ => ?_⟩
    rw [ht] at hn
    cases hn

theorem requests_visit
    (ih : ∀ names n t s, world s → n ∈ G.modules → s.Has n → (G.unlinked s).card < depth →
      G.Visits world (G.SoundBelow n) True (visitLinking host depth names n) t s)
    (hs : G.source m = some record) (hm : m ∈ G.modules) (requests : List String) :
    ∀ t s, (∀ request ∈ requests, request ∈ record.requested) → world s → s.Has m →
      (G.unlinked s).card < depth →
        G.Visits world (G.SoundBelow m) (∀ request ∈ requests, ∃ n, G.target m request = some n)
          (requests.forM (Machine.requestLinking host depth names m)) t s := by
  induction requests with
  | nil => exact fun t s _ hw _ _ => .pure hw fun _ hr => nomatch hr
  | cons request rest ihr =>
    intro t s hr hw hh hcard
    refine ((request_visits h ih hs (hr request (List.mem_cons_self ..)) hw hm hh hcard).bind
      fun t₁ s₁ hw₁ hgrow₁ hc₁ _ => ?_).congr
        (List.forall_mem_cons (p := fun request => ∃ n, G.target m request = some n)).symm
    exact ihr t₁ s₁ (fun r hr' => hr r (List.mem_cons_of_mem _ hr')) hw₁ (hgrow₁ m hh)
      (hc₁.card_unlinked_le.trans_lt hcard)

/-- A leaf requests nothing, so it can always be linked. -/
theorem linkLeaf_visits (hs : G.source m = none) (hw : world s) (hm : m ∈ G.modules) (hh : s.Has m)
    (names : List String) :
    G.Visits world good True (LinkVisit.ofLinking (linkLeaf host names m)) t s := by
  have hsound : G.Sound m := fun record hrec => by rw [hs] at hrec; cases hrec
  have hrun : Returns world (linkLeaf host names m) s fun r _ => Passes True True r := by
    refine .step rfl (h.serves.refl s) hw fun _ _ => ?_
    split
    · obtain ⟨s₁, hrun⟩ := h.linksLeaf hw hm hh
      have hleaf : Returns world (host.linkLeaf m) s fun r _ => r = .ok () :=
        .of_within (h.linkLeaf m) hw ⟨_, s₁, hrun, rfl⟩
      refine .ofAct_bind hleaf (fun _ s₂ hw₂ _ _ => ⟨_, _, rfl, ?_, .ok trivial⟩)
        fun e s₂ he => by cases he
      exact h.text s₂ m (fun x => by cases x.kind <;> exact ⟨rfl, rfl⟩) hw₂
    · exact .pure hw (.ok trivial)
  have hc := Checked.composes (σ := σ) (κ := κ) G
  refine .ofLinking hrun (fun _ => trivial) (Within.bind hc (fun s r s' e => ?_) fun kind => ?_)
  · cases e
    exact hc.refl s
  · split
    · refine Within.bind hc (Within.ofAct (Checked.of_lookup (h.conduct.linkLeaf m))) fun _ => ?_
      intro s r s' e
      cases e
      refine .of_status fun x => ?_
      have hends : ∀ f : ModuleKind → ModuleKind,
          (∀ k, (f k).status = k.status ∨ (f k).status = .linked) →
          (s.updateKind m f).status x = s.status x ∨
            G.Sound x ∧ (s.updateKind m f).status x ≠ .unlinked := fun f hf => by
        refine (Machine.status_updateKind s m x hf).imp id ?_
        rintro ⟨rfl, hl⟩
        exact ⟨hsound, fun hu => by cases hl.symm.trans hu⟩
      refine hends _ fun k => ?_
      cases k with
      | leaf state => exact .inr rfl
      | _ => exact .inl rfl
    · exact Within.pure hc _

theorem openLinking_opens {c : Cyclic} (hc : s.cyclic? m = some c) (hw : world s) (hh : s.Has m) :
    ∃ opened, openLinking m t s = some ((.ok (), ⟨m :: t.stack, t.visits + 1⟩), opened) ∧
      world opened ∧ (∀ x, s.Has x → opened.Has x) ∧ G.Checked s opened ∧
      opened.status m ≠ .unlinked := by
  let mark : Cyclic → Cyclic := fun c =>
    { c with status := .linking, visit := some t.visits, ancestor := some t.visits }
  obtain ⟨hw', hgrow⟩ := h.updateCyclic s m (f := mark) (fun _ => rfl) hw
  have hstatus : ∀ x, (s.updateCyclic m mark).status x = s.status x ∨
      x = m ∧ (s.updateCyclic m mark).status x = .linking := fun x =>
    Machine.status_updateKind s m x fun k => by
      cases k with
      | leaf state => exact .inl rfl
      | _ => exact .inr rfl
  have hmarked : (s.updateCyclic m mark).cyclic? m = some (mark c) := by
    rw [Machine.cyclic?_updateCyclic mark hh, if_pos rfl, hc, Option.map_some]
  refine ⟨s.updateCyclic m mark, rfl, hw', hgrow, ⟨fun x hx => ?_, fun x hx => ?_⟩, ?_⟩
  · rcases hstatus x with e | ⟨-, e⟩
    · rwa [e]
    · rw [e]
      exact Status.noConfusion
  · rcases hstatus x with e | ⟨-, e⟩
    · exact .inl (e ▸ hx)
    · rw [e] at hx
      exact hx.elim
  · rw [Machine.status_of_cyclic? hmarked]
    exact Status.noConfusion

/-- Closing a module links sound modules only, if those above it are sound. -/
theorem closeLinking_closes (hw : world s) {added base : List ModuleId} (hm : G.Sound m)
    (hstack : t.stack = added ++ m :: base) (hadded : ∀ x ∈ added, G.Sound x) :
    ∃ t' s', closeLinking m t s = some ((.ok (), t'), s') ∧
      (world s' ∧ ∀ x, s.Has x → s'.Has x) ∧ G.Checked s s' ∧
      ∃ rest, t'.stack = rest ++ base ∧ ∀ x ∈ rest, G.Sound x := by
  rw [closeLinking_apply]
  split
  · obtain ⟨stack, visits⟩ := t
    obtain rfl : stack = _ := hstack
    obtain ⟨rest, hrest, hsound, hcycle⟩ := close_split hm base visits added hadded
    have hset : ∀ (s : Machine σ κ) x, Machine.Stays world s (s.setStatus x .linked) :=
      fun s x => h.updateCyclic s x fun _ => rfl
    refine ⟨_, _, rfl, h.foldl hset _ s hw, .of_status fun x => ?_, rest, hrest, hsound⟩
    refine (Machine.status_linked _ s x).imp id fun ⟨hx, hl⟩ => ⟨hcycle x hx, ?_⟩
    rw [hl]
    exact Status.noConfusion
  · refine ⟨t, s, rfl, ⟨hw, fun _ => id⟩, (Checked.composes G).refl s, added ++ [m], ?_,
      fun x hx => ?_⟩
    · rw [hstack, List.append_assoc, List.singleton_append]
    · rcases List.mem_append.1 hx with hx | hx
      · exact hadded x hx
      · rwa [List.mem_singleton.1 hx]

/-- All that is done for a module before its cycle is closed. -/
theorem handle_visits {c : Cyclic} (hwf : G.WellFormed) (hdepth : G.bound < host.depth)
    (ih : ∀ names n t s, world s → n ∈ G.modules → s.Has n → (G.unlinked s).card < depth →
      G.Visits world (G.SoundBelow n) True (visitLinking host depth names n) t s)
    (hs : G.source m = some record) (hreq : c.requested = record.requested) (hw : world s)
    (hm : m ∈ G.modules) (hh : s.Has m) (hcard : (G.unlinked s).card < depth) (t : Traversal)
    (names : List String) :
    G.Visits world (G.SoundBelow m) (G.Sound m) (do
      c.requested.forM (Machine.requestLinking host depth names m)
      LinkVisit.ofLinking (initializeModule host names m)) t s := by
  rw [hreq]
  refine ((requests_visit h ih hs hm record.requested t s (fun _ => id) hw hh hcard).bind
    (B := (∀ e ∈ record.indirectExports, G.Takes m e.request e.importName) ∧
      ∀ i ∈ record.imports, G.Takes m i.request i.importName)
    fun t₁ s₁ hw₁ hgrow₁ _ _ => ?_).congr ?_
  · have hrecord := (h.serves.record hw₁ hm (hgrow₁ m hh)).trans hs
    have hrun : Returns world (initializeModule host names m) s₁ fun r _ => Passes (G.Clear m)
        ((∀ e ∈ record.indirectExports, G.Takes m e.request e.importName) ∧
          ∀ i ∈ record.imports, G.Takes m i.request i.importName) r := by
      have hview : Linking.view (fun s => s.record? m) s₁ = some (.ok (some record), s₁) := by
        rw [Linking.view_apply, hrecord]
      exact .step hview (h.serves.refl s₁) hw₁ fun _ _ =>
        initializeSource_returns h hwf.listed hdepth hs hw₁ hm (hgrow₁ m hh) names
    obtain ⟨r, s', hinit, hstay, hp⟩ := hrun
    refine ⟨r, t₁, s', LinkVisit.ofLinking_eq_some.2 ⟨rfl, hinit⟩, hstay, ?_,
      fun _ => ⟨[], rfl, fun _ hx => nomatch hx⟩, hp.1, fun hg => hp.2 (clear_of_sound hg)⟩
    refine .of_keeps (h.conduct.initializeModule names m s₁ r s' hinit) fun x hx => ?_
    subst hx
    exact ⟨hgrow₁ x hh, Machine.cyclic?_of_record? hrecord⟩
  · constructor
    · rintro ⟨hr, ht⟩ record' hs'
      cases hs.symm.trans hs'
      exact ⟨hr, ht⟩
    · exact fun hsound => hsound record hs

theorem open_visits {c : Cyclic} (hwf : G.WellFormed) (hdepth : G.bound < host.depth)
    (ih : ∀ names n t s, world s → n ∈ G.modules → s.Has n → (G.unlinked s).card < depth →
      G.Visits world (G.SoundBelow n) True (visitLinking host depth names n) t s)
    (hc : s.cyclic? m = some c) (hu : c.status = .unlinked) (hw : world s) (hm : m ∈ G.modules)
    (hh : s.Has m) (hcard : (G.unlinked s).card < depth + 1) (names : List String) :
    G.Visits world (G.SoundBelow m) True (do
      openLinking m
      c.requested.forM (Machine.requestLinking host depth names m)
      LinkVisit.ofLinking (initializeModule host names m)
      closeLinking m) t s := by
  have hreq := h.requested hw hm hh
  rw [hc] at hreq
  cases hs : G.source m with
  | none => rw [hs] at hreq; cases hreq
  | some record =>
    rw [hs] at hreq
    obtain ⟨opened, hopen, hw₁, hgrow₁, hc₁, hmarked⟩ := openLinking_opens (t := t) h hc hw hh
    have hcard₁ : (G.unlinked opened).card < depth :=
      (hc₁.card_unlinked_lt hm ((Machine.status_of_cyclic? hc).trans hu) hmarked).trans_le
        (Nat.le_of_lt_succ hcard)
    obtain ⟨r, t₂, s₂, hrun, ⟨hw₂, hgrow₂⟩, hc₂, hstack, hp⟩ :=
      handle_visits h hwf hdepth ih hs (Option.some.inj hreq) hw₁ hm (hgrow₁ m hh) hcard₁
        ⟨m :: t.stack, t.visits + 1⟩ names
    have hgrow := fun x hx => hgrow₂ x (hgrow₁ x hx)
    have hchecked := (Checked.composes G).trans hc₁ hc₂
    cases r with
    | error e =>
      refine ⟨.error e, t₂, s₂, ?_, ⟨hw₂, hgrow⟩, hchecked, fun hok => (nomatch hok),
        .error fun hg _ => hp.not_of_error hg (hg m .refl)⟩
      refine visit_bind.2 (.inl ⟨(), _, opened, hopen, ?_⟩)
      rw [← bind_assoc]
      exact visit_bind.2 (.inr ⟨e, hrun, rfl⟩)
    | ok _ =>
      obtain ⟨added, hadded, hsound⟩ := hstack rfl
      obtain ⟨t', s', hclose, ⟨hw', hgrow'⟩, hc', hrest⟩ :=
        closeLinking_closes h hw₂ (hp.1 ⟨(), rfl⟩) hadded hsound
      refine ⟨.ok (), t', s', ?_, ⟨hw', fun x hx => hgrow' x (hgrow x hx)⟩,
        (Checked.composes G).trans hchecked hc', fun _ => hrest, .ok trivial⟩
      refine visit_bind.2 (.inl ⟨(), _, opened, hopen, ?_⟩)
      rw [← bind_assoc]
      exact visit_bind.2 (.inl ⟨(), t₂, s₂, hrun, hclose⟩)

/-- A visit of a depth that exceeds the number of unlinked modules. -/
theorem visitLinking_visits (hwf : G.WellFormed) (hdepth : G.bound < host.depth) (depth : Nat) :
    ∀ names m t s, world s → m ∈ G.modules → s.Has m → (G.unlinked s).card < depth →
      G.Visits world (G.SoundBelow m) True (visitLinking host depth names m) t s := by
  induction depth with
  | zero => exact fun _ _ _ _ _ _ _ hcard => absurd hcard (Nat.not_lt_zero _)
  | succ depth ih =>
    intro names m t s hw hm hh hcard
    have hreq := h.requested hw hm hh
    rw [visitLinking]
    cases hc : s.cyclic? m with
    | none =>
      have hs : G.source m = none := by
        rw [hc] at hreq
        exact Option.map_eq_none_iff.1 hreq.symm
      refine (linkLeaf_visits h hs hw hm hh names).of_eq ?_
      rw [LinkVisit.view_bind, hc]
    | some c =>
      by_cases hu : c.status = .unlinked
      · refine (open_visits h hwf hdepth ih hc hu hw hm hh hcard names).of_eq ?_
        rw [LinkVisit.view_bind, hc]
        exact congrFun (congrFun (if_pos hu) t) s
      · refine (Visits.pure hw trivial).of_eq ?_
        rw [LinkVisit.view_bind, hc]
        exact congrFun (congrFun (if_neg hu) t) s

end Links

end ExportGraph

end ModuleGraph

import Mathlib.Tactic.Set
import ModuleGraph.Proofs.Linking.Conduct

/-! # The machine during a link

The modules in the stage `linking` are those on the stack of the search, and no others. A module
that was linked before the link stays as it is, and whatever is linked has all its requests
answered by modules that are linked too. -/

namespace ModuleGraph

variable {σ κ : Type}

def Machine.Answered (journal : σ → Journal) (s : Machine σ κ) (m : ModuleId) (r : String) :
    Prop :=
  ∃ n, Entry.resolved m r n ∈ journal s.host ∧ (s.status n).IsLinked

/-- A machine in which a link has the modules of `stack` open, compared with the one in which the
link was started. -/
structure Machine.InLink (journal : σ → Journal) (start s : Machine σ κ) (stack : List ModuleId) :
    Prop where
  nodup : stack.Nodup
  open_iff : ∀ x, s.status x = .linking ↔ x ∈ stack
  marked : ∀ x ∈ stack, ∃ c, s.cyclic? x = some c ∧ c.visit.isSome ∧ c.ancestor.isSome
  unlinked : ∀ x, s.status x = .unlinked → (s.module x).kind.IsUnlinked
  kept : ∀ x, (start.status x).IsLinked → (s.module x).kind = (start.module x).kind
  linked : ∀ x, ¬(start.status x).IsLinked → (s.status x).IsLinked → s.status x = .linked
  answered : ∀ x, (s.status x).IsLinked → ∀ r ∈ s.requested x, s.Answered journal x r

/-- What the part of a link that lies above the modules of `base` leaves of the machine. -/
structure Machine.Above (journal : σ → Journal) (base : List ModuleId) (s s' : Machine σ κ) :
    Prop where
  has : ∀ m, s.Has m → s'.Has m
  cyclic : ∀ m ∈ base, s'.cyclic? m = s.cyclic? m
  linked : ∀ m, (s.status m).IsLinked → (s'.status m).IsLinked
  noted : ∀ e ∈ journal s.host, e ∈ journal s'.host

theorem Machine.Above.composes (journal : σ → Journal) (base : List ModuleId) :
    Composes (Machine.Above (κ := κ) journal base) where
  refl _ := ⟨fun _ h => h, fun _ _ => rfl, fun _ h => h, fun _ h => h⟩
  trans h h' :=
    ⟨fun m hm => h'.has m (h.has m hm), fun m hm => (h'.cyclic m hm).trans (h.cyclic m hm),
      fun m hm => h'.linked m (h.linked m hm), fun e he => h'.noted e (h.noted e he)⟩

namespace Machine.InLink

variable {journal : σ → Journal} {start s s' : Machine σ κ} {stack : List ModuleId}
variable {free : ModuleId → Prop} {m x : ModuleId}

theorem has (h : InLink journal start s stack) (hx : x ∈ stack) : s.Has x := by
  refine has_of_status_ne ?_
  rw [(h.open_iff x).2 hx]
  exact Status.noConfusion

theorem not_linked (h : InLink journal start s stack) (hx : x ∈ stack) :
    ¬(s.status x).IsLinked := by
  rw [(h.open_iff x).2 hx]
  exact id

theorem status_kept (h : InLink journal start s stack) (hx : (start.status x).IsLinked) :
    s.status x = start.status x := by
  rw [status, h.kept x hx, status]

/-- A hook that changes open modules only, and of these only what linking makes. -/
theorem status_keeps (h : InLink journal start s stack) (hk : s.Keeps journal free s')
    (hfree : ∀ x, free x → x ∈ stack) (x : ModuleId) (hx : s.Has x) :
    s'.status x = s.status x := by
  by_cases hf : free x
  · obtain ⟨c, hc, -⟩ := h.marked x (hfree x hf)
    obtain ⟨w, hw⟩ := hk.cyclic x hx hf
    rw [hc, Option.map_some] at hw
    rw [status_of_cyclic? hw, status_of_cyclic? hc]
  · rw [status, hk.kind x hx hf, status]

theorem status_made (h : InLink journal start s stack) (hk : s.Keeps journal free s')
    (hfree : ∀ x, free x → x ∈ stack) (hx : ¬s.Has x) : s'.status x = .unlinked :=
  (hk.made x hx fun hf => hx (h.has (hfree x hf))).isUnlinked.status_eq

theorem above_keeps (h : InLink journal start s stack) (hk : s.Keeps journal free s')
    (hfree : ∀ x, free x → x ∈ stack) (base : List ModuleId) (hbase : ∀ x ∈ base, x ∈ stack)
    (hb : ∀ x ∈ base, ¬free x) : s.Above journal base s' where
  has := hk.has
  cyclic x hx := by
    rw [cyclic?_eq, hk.kind x (h.has (hbase x hx)) (hb x hx), ← cyclic?_eq]
  linked x hx := by
    have hhas : s.Has x := has_of_status_ne fun e => by
      rw [e] at hx
      exact hx
    rwa [h.status_keeps hk hfree x hhas]
  noted e he := by
    obtain ⟨k, -, hk⟩ := hk.noted
    rw [hk]
    exact List.mem_append_left _ he

theorem keeps (h : InLink journal start s stack) (hk : s.Keeps journal free s')
    (hfree : ∀ x, free x → x ∈ stack) : InLink journal start s' stack := by
  have hlinked : ∀ x, (s'.status x).IsLinked → s.Has x := by
    intro x hx
    by_contra hn
    rw [h.status_made hk hfree hn] at hx
    exact hx
  have habove := h.above_keeps hk hfree [] (fun _ hx => nomatch hx) fun _ hx => nomatch hx
  refine ⟨h.nodup, fun x => ?_, fun x hx => ?_, fun x hx => ?_, fun x hx => ?_,
    fun x hx hx' => ?_, fun x hx r hr => ?_⟩
  · by_cases hx : s.Has x
    · rw [h.status_keeps hk hfree x hx]
      exact h.open_iff x
    · rw [h.status_made hk hfree hx]
      exact ⟨fun e => Status.noConfusion e, fun hs => absurd (h.has hs) hx⟩
  · obtain ⟨c, hc, hv, ha⟩ := h.marked x hx
    obtain ⟨w, hw⟩ := hk.cyclic?_eq (h.has hx)
    exact ⟨{ c with hasAwait := w }, by rw [hw, hc, Option.map_some], hv, ha⟩
  · by_cases hh : s.Has x
    · rw [h.status_keeps hk hfree x hh] at hx
      rw [hk.kind x hh fun hf => ?_]
      · exact h.unlinked x hx
      · rw [(h.open_iff x).2 (hfree x hf)] at hx
        exact Status.noConfusion hx
    · exact (hk.made x hh fun hf => hh (h.has (hfree x hf))).isUnlinked
  · have hs : (s.status x).IsLinked := by
      rwa [h.status_kept hx]
    have hh : s.Has x := has_of_status_ne fun e => by
      rw [e] at hs
      exact hs
    rw [hk.kind x hh fun hf => h.not_linked (hfree x hf) hs, h.kept x hx]
  · have hh := hlinked x hx'
    rw [h.status_keeps hk hfree x hh] at hx' ⊢
    exact h.linked x hx hx'
  · have hh := hlinked x hx
    rw [h.status_keeps hk hfree x hh] at hx
    have hr' : r ∈ s.requested x := by
      obtain ⟨w, hw⟩ := hk.cyclic?_eq hh
      rw [requested, hw] at hr
      rw [requested]
      cases hc : s.cyclic? x <;> rw [hc] at hr <;> exact hr
    obtain ⟨n, hn, hn'⟩ := h.answered x hx r hr'
    exact ⟨n, habove.noted _ hn, habove.linked n hn'⟩

/-- An update of the cyclic fields of an open module that keeps it open. -/
theorem updateOpen (h : InLink journal start s stack) (hm : m ∈ stack) {f : Cyclic → Cyclic}
    (hs : ∀ c, (f c).status = c.status)
    (hv : ∀ c, c.visit.isSome → (f c).visit.isSome)
    (ha : ∀ c, c.ancestor.isSome → (f c).ancestor.isSome) :
    InLink journal start (s.updateCyclic m f) stack := by
  have hh := h.has hm
  obtain ⟨c, hc, hcv, hca⟩ := h.marked m hm
  have hc' : (s.updateCyclic m f).cyclic? m = some (f c) := by
    rw [cyclic?_updateCyclic f hh, if_pos rfl, hc, Option.map_some]
  have hkind : ∀ x, x ≠ m → ((s.updateCyclic m f).module x).kind = (s.module x).kind :=
    fun x hx => by rw [kind_updateCyclic f hh, if_neg hx]
  have hcyclic : ∀ x, x ≠ m → (s.updateCyclic m f).cyclic? x = s.cyclic? x :=
    fun x hx => by rw [cyclic?_eq, hkind x hx, cyclic?_eq]
  have hstatus : ∀ x, (s.updateCyclic m f).status x = s.status x := by
    intro x
    by_cases e : x = m
    · subst e
      rw [status_of_cyclic? hc', status_of_cyclic? hc, hs]
    · rw [status, hkind x e, status]
  have hne : ∀ x, s.status x ≠ .linking → x ≠ m := by
    rintro x hx rfl
    exact hx ((h.open_iff x).2 hm)
  refine ⟨h.nodup, fun x => ?_, fun x hx => ?_, fun x hx => ?_, fun x hx => ?_,
    fun x hx hx' => ?_, fun x hx r hxr => ?_⟩
  · rw [hstatus]
    exact h.open_iff x
  · by_cases e : x = m
    · subst e
      exact ⟨f c, hc', hv c hcv, ha c hca⟩
    · rw [hcyclic x e]
      exact h.marked x hx
  · rw [hstatus] at hx
    rw [hkind x (hne x (by simp [hx]))]
    exact h.unlinked x hx
  · rw [hkind x (hne x fun e => ?_)]
    · exact h.kept x hx
    · rw [h.status_kept hx] at e
      rw [e] at hx
      exact hx
  · rw [hstatus] at hx' ⊢
    exact h.linked x hx hx'
  · rw [hstatus] at hx
    have hxm : x ≠ m := by
      rintro rfl
      exact h.not_linked hm hx
    rw [requested, hcyclic x hxm, ← requested] at hxr
    obtain ⟨n, hn, hn'⟩ := h.answered x hx r hxr
    exact ⟨n, hn, by rwa [hstatus]⟩

theorem enter (h : InLink journal start s stack) {c : Cyclic} (hm : s.Has m)
    (hc : s.cyclic? m = some c) (hu : c.status = .unlinked) {f : Cyclic → Cyclic}
    (hs : (f c).status = .linking) (hv : (f c).visit.isSome) (ha : (f c).ancestor.isSome) :
    InLink journal start (s.updateCyclic m f) (m :: stack) := by
  have hc' : (s.updateCyclic m f).cyclic? m = some (f c) := by
    rw [cyclic?_updateCyclic f hm, if_pos rfl, hc, Option.map_some]
  have hkind : ∀ x, x ≠ m → ((s.updateCyclic m f).module x).kind = (s.module x).kind :=
    fun x hx => by rw [kind_updateCyclic f hm, if_neg hx]
  have hcyclic : ∀ x, x ≠ m → (s.updateCyclic m f).cyclic? x = s.cyclic? x :=
    fun x hx => by rw [cyclic?_eq, hkind x hx, cyclic?_eq]
  have hstatus : ∀ x, x ≠ m → (s.updateCyclic m f).status x = s.status x :=
    fun x hx => by rw [status, hkind x hx, status]
  have hsm : s.status m = .unlinked := by rw [status_of_cyclic? hc, hu]
  have hsm' : (s.updateCyclic m f).status m = .linking := by rw [status_of_cyclic? hc', hs]
  have hlinked : ∀ x, ((s.updateCyclic m f).status x).IsLinked → x ≠ m := by
    rintro x hx rfl
    rw [hsm'] at hx
    exact hx
  refine ⟨List.nodup_cons.2 ⟨fun hms => ?_, h.nodup⟩, fun x => ?_, fun x hx => ?_, fun x hx => ?_,
    fun x hx => ?_, fun x hx hx' => ?_, fun x hx r hxr => ?_⟩
  · rw [← h.open_iff, hsm] at hms
    exact Status.noConfusion hms
  · by_cases e : x = m
    · subst e
      simp [hsm']
    · rw [hstatus x e, h.open_iff, List.mem_cons]
      exact ⟨.inr, fun hx => hx.resolve_left e⟩
  · by_cases e : x = m
    · subst e
      exact ⟨f c, hc', hv, ha⟩
    · rw [hcyclic x e]
      exact h.marked x ((List.mem_cons.1 hx).resolve_left e)
  · have e : x ≠ m := by
      rintro rfl
      rw [hsm'] at hx
      exact Status.noConfusion hx
    rw [hstatus x e] at hx
    rw [hkind x e]
    exact h.unlinked x hx
  · rw [hkind x, h.kept x hx]
    rintro rfl
    rw [← h.status_kept hx, hsm] at hx
    exact hx
  · have e := hlinked x hx'
    rw [hstatus x e] at hx' ⊢
    exact h.linked x hx hx'
  · have e := hlinked x hx
    rw [hstatus x e] at hx
    rw [requested, hcyclic x e, ← requested] at hxr
    obtain ⟨n, hn, hn'⟩ := h.answered x hx r hxr
    refine ⟨n, hn, ?_⟩
    rw [hstatus n]
    · exact hn'
    · rintro rfl
      rw [hsm] at hn'
      exact hn'

section Close

variable {cycle post : List ModuleId} (h : InLink journal start s (cycle ++ post))
variable (hs' : cycle.foldl (fun s x => s.setStatus x .linked) s = s')
include h hs'

/-- The stage of the modules of the cycle changes, and nothing else. -/
theorem kind_close (x : ModuleId) : (s'.module x).kind = if x ∈ cycle then
    (s.module x).kind.updateCyclic (fun c => { c with status := .linked })
    else (s.module x).kind := by
  rw [← hs']
  exact kind_foldl_updateKind _ (List.nodup_append.1 h.nodup).1 fun x hx =>
    h.has (List.mem_append_left _ hx)

theorem kind_close_of_not_mem (hx : x ∉ cycle) : (s'.module x).kind = (s.module x).kind := by
  rw [h.kind_close hs', if_neg hx]

theorem cyclic?_close (hx : x ∈ cycle) : ∃ c, s.cyclic? x = some c ∧
    s'.cyclic? x = some { c with status := .linked } := by
  obtain ⟨c, hc, -⟩ := h.marked x (List.mem_append_left _ hx)
  refine ⟨c, hc, ?_⟩
  rw [cyclic?_eq, h.kind_close hs', if_pos hx, ModuleKind.cyclic?_updateCyclic, ← cyclic?_eq, hc,
    Option.map_some]

theorem status_close (x : ModuleId) :
    s'.status x = if x ∈ cycle then .linked else s.status x := by
  split
  · obtain ⟨c, -, hc⟩ := h.cyclic?_close hs' ‹_›
    exact status_of_cyclic? hc
  · rw [status, h.kind_close_of_not_mem hs' ‹_›, status]

theorem isLinked_close (hx : (s.status x).IsLinked) : (s'.status x).IsLinked := by
  rw [h.status_close hs']
  split
  · trivial
  · exact hx

/-- A request of the cycle is answered by a linked module or within the cycle, and so by a module
that is linked now. -/
theorem answered_close {r : String} (hcycle : ∀ x ∈ cycle, ∀ r ∈ s.requested x,
      ∃ n, Entry.resolved x r n ∈ journal s.host ∧ ((s.status n).IsLinked ∨ n ∈ cycle))
    (hx : (s'.status x).IsLinked) (hr : r ∈ s'.requested x) : s'.Answered journal x r := by
  have hhost : s'.host = s.host := by
    rw [← hs']
    exact host_foldl_updateKind _ cycle
  by_cases hc : x ∈ cycle
  · obtain ⟨c, hcx, hcx'⟩ := h.cyclic?_close hs' hc
    rw [requested_of_cyclic? hcx'] at hr
    obtain ⟨n, hn, hlinked | hmem⟩ := hcycle x hc r (by rwa [requested_of_cyclic? hcx])
    · exact ⟨n, by rwa [hhost], h.isLinked_close hs' hlinked⟩
    · refine ⟨n, by rwa [hhost], ?_⟩
      rw [h.status_close hs', if_pos hmem]
      trivial
  · rw [h.status_close hs', if_neg hc] at hx
    rw [requested, cyclic?_eq, h.kind_close_of_not_mem hs' hc, ← cyclic?_eq, ← requested] at hr
    obtain ⟨n, hn, hlinked⟩ := h.answered x hx r hr
    exact ⟨n, by rwa [hhost], h.isLinked_close hs' hlinked⟩

end Close

/-- Open modules whose requests are all answered by linked modules or within themselves are
linked. -/
theorem close {cycle post : List ModuleId} (h : InLink journal start s (cycle ++ post))
    (hcycle : ∀ x ∈ cycle, ∀ r ∈ s.requested x, ∃ n, Entry.resolved x r n ∈ journal s.host ∧
      ((s.status n).IsLinked ∨ n ∈ cycle)) :
    InLink journal start (cycle.foldl (fun s x => s.setStatus x .linked) s) post := by
  generalize hs' : cycle.foldl (fun s x => s.setStatus x .linked) s = s'
  obtain ⟨-, hpost, hdisjoint⟩ := List.nodup_append.1 h.nodup
  have hstatus := h.status_close hs'
  refine ⟨hpost, ?open_iff, ?marked, ?unlinked, ?kept, ?linked, fun x hx r hr =>
    h.answered_close hs' hcycle hx hr⟩
  case open_iff =>
    intro x
    rw [hstatus]
    split
    · exact ⟨fun e => Status.noConfusion e, fun hp => absurd rfl (hdisjoint x ‹_› x hp)⟩
    · rw [h.open_iff, List.mem_append]
      exact ⟨fun hp => hp.resolve_left ‹_›, .inr⟩
  case marked =>
    intro x hx
    have hx' : x ∉ cycle := fun hx' => hdisjoint x hx' x hx rfl
    rw [cyclic?_eq, h.kind_close_of_not_mem hs' hx', ← cyclic?_eq]
    exact h.marked x (List.mem_append_right _ hx)
  case unlinked =>
    intro x hx
    rw [hstatus] at hx
    split at hx
    · exact Status.noConfusion hx
    · rw [h.kind_close_of_not_mem hs' ‹_›]
      exact h.unlinked x hx
  case kept =>
    intro x hx
    rw [h.kind_close_of_not_mem hs' fun hx' => ?_, h.kept x hx]
    refine h.not_linked (List.mem_append_left _ hx') ?_
    rwa [h.status_kept hx]
  case linked =>
    intro x hx hx'
    by_cases hc : x ∈ cycle
    · rw [hstatus, if_pos hc]
    · rw [hstatus, if_neg hc] at hx' ⊢
      exact h.linked x hx hx'

end Machine.InLink

end ModuleGraph

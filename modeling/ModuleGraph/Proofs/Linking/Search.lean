import ModuleGraph.Proofs.DepthFirst
import ModuleGraph.Proofs.Linking.Open

/-! # The search of a link

A request of an open module is answered by a linked module, or by an open one that was not visited
before what the requesting module is known to reach. So the requests of a cycle are answered within
the cycle or by linked modules when its root is left, and the cycle can be linked. -/

namespace ModuleGraph

variable {σ κ : Type}

/-- A module that was given for a request is linked, or it is open and was not visited before what
the requesting module is known to reach. -/
def Machine.Reached (journal : σ → Journal) (s : Machine σ κ) (stack : List ModuleId)
    (m : ModuleId) (r : String) : Prop :=
  ∃ n, Entry.resolved m r n ∈ journal s.host ∧
    ((s.status n).IsLinked ∨ n ∈ stack ∧ s.lowOf m ≤ s.visitOf n)

structure Machine.Searching (journal : σ → Journal) (start s : Machine σ κ) (t : Traversal)
    (path : List ModuleId) : Prop extends Machine.InLink journal start s t.stack where
  search : Search (fun _ _ => True) (fun _ _ => True) s.visitOf s.lowOf t.visits t.stack path
  reached : ∀ x ∈ t.stack, x ∉ path → ∀ r ∈ s.requested x, s.Reached journal t.stack x r

namespace Machine

variable {journal : σ → Journal} {start s s' : Machine σ κ} {t t' : Traversal}
variable {free : ModuleId → Prop} {path base stack stack' : List ModuleId} {m n x : ModuleId}
variable {r : String}

theorem Reached.mono (h : s.Reached journal stack m r)
    (hj : ∀ e ∈ journal s.host, e ∈ journal s'.host)
    (hl : ∀ x, (s.status x).IsLinked → (s'.status x).IsLinked)
    (hs : ∀ x ∈ stack, (s'.status x).IsLinked ∨ x ∈ stack' ∧ s'.visitOf x = s.visitOf x)
    (hm : s'.lowOf m ≤ s.lowOf m) : s'.Reached journal stack' m r := by
  obtain ⟨n, hn, hn' | ⟨hn', hle⟩⟩ := h
  · exact ⟨n, hj _ hn, .inl (hl n hn')⟩
  · refine ⟨n, hj _ hn, (hs n hn').imp id fun ⟨hs, hv⟩ => ⟨hs, ?_⟩⟩
    rw [hv]
    exact hm.trans hle

theorem requested_eq_of_cyclic? (h : s'.cyclic? m = s.cyclic? m) :
    s'.requested m = s.requested m := by
  rw [requested, h, ← requested]

theorem Keeps.requested (h : s.Keeps journal free s') (hm : s.Has m) :
    s'.requested m = s.requested m := by
  obtain ⟨w, hw⟩ := h.cyclic?_eq hm
  rw [Machine.requested, hw, Machine.requested]
  cases s.cyclic? m <;> rfl

theorem Keeps.visitOf (h : s.Keeps journal free s') (hm : s.Has m) :
    s'.visitOf m = s.visitOf m := by
  obtain ⟨w, hw⟩ := h.cyclic?_eq hm
  rw [Machine.visitOf, Machine.cyclic, hw, Machine.visitOf, Machine.cyclic]
  cases s.cyclic? m <;> rfl

theorem Keeps.lowOf (h : s.Keeps journal free s') (hm : s.Has m) :
    s'.lowOf m = s.lowOf m := by
  obtain ⟨w, hw⟩ := h.cyclic?_eq hm
  rw [Machine.lowOf, Machine.cyclic, hw, Machine.lowOf, Machine.cyclic]
  cases s.cyclic? m <;> rfl

namespace Searching

theorem reached_keeps (h : Searching journal start s t path) (hk : s.Keeps journal free s')
    (hfree : ∀ x, free x → x ∈ t.stack) (hm : m ∈ t.stack) (hr : s.Reached journal t.stack m r) :
    s'.Reached journal t.stack m r := by
  have ha := h.above_keeps hk hfree [] (fun _ hx => nomatch hx) fun _ hx => nomatch hx
  exact hr.mono ha.noted ha.linked (fun x hx => .inr ⟨hx, hk.visitOf (h.has hx)⟩)
    (hk.lowOf (h.has hm)).le

theorem keeps (h : Searching journal start s t path) (hk : s.Keeps journal free s')
    (hfree : ∀ x, free x → x ∈ t.stack) : Searching journal start s' t path where
  toInLink := h.toInLink.keeps hk hfree
  search := h.search.mono (fun _ _ _ => trivial) (fun _ _ _ _ _ _ _ => trivial)
    (fun _ hx => hk.visitOf (h.has hx)) fun _ hx => hk.lowOf (h.has hx)
  reached x hx hp r hr := by
    rw [hk.requested (h.has hx)] at hr
    exact h.reached_keeps hk hfree hx (h.reached x hx hp r hr)

/-- Nothing is open before the first module is visited. -/
theorem first (h : InLink journal start s []) : Searching journal start s ⟨[], 0⟩ [] where
  toInLink := h
  search := .nil
  reached _ hx := nomatch hx

theorem enter (h : Searching journal start s t path) {c : Cyclic} (hm : s.Has m)
    (hc : s.cyclic? m = some c) (hu : c.status = .unlinked) {f : Cyclic → Cyclic}
    (hf : f = fun c =>
      { c with status := .linking, visit := some t.visits, ancestor := some t.visits }) :
    Searching journal start (s.updateCyclic m f) ⟨m :: t.stack, t.visits + 1⟩ (m :: path) ∧
      s.Above journal t.stack (s.updateCyclic m f) ∧
      (s.updateCyclic m f).requested m = c.requested := by
  subst hf
  set s' := s.updateCyclic m _ with hs'
  have hin := h.toInLink.enter hm hc hu (f := fun c =>
    { c with status := .linking, visit := some t.visits, ancestor := some t.visits }) rfl rfl rfl
  have hms : m ∉ t.stack := fun hms => by
    rw [← h.open_iff, status_of_cyclic? hc, hu] at hms
    exact Status.noConfusion hms
  have hother : ∀ x, x ≠ m → s'.cyclic? x = s.cyclic? x := fun x hx => by
    rw [hs', cyclic?_updateCyclic _ hm, if_neg hx]
  have hbase : ∀ x ∈ t.stack, s'.cyclic? x = s.cyclic? x :=
    fun x hx => hother x fun e => hms (e ▸ hx)
  have hlinked : ∀ x, (s.status x).IsLinked → (s'.status x).IsLinked := by
    intro x hx
    have hxm : x ≠ m := by
      rintro rfl
      rw [status_of_cyclic? hc, hu] at hx
      exact hx
    rwa [status, hs', kind_updateCyclic _ hm, if_neg hxm, ← status]
  have hself := cyclic_updateCyclic_self (fun c =>
    { c with status := .linking, visit := some t.visits, ancestor := some t.visits }) hm hc
  refine ⟨⟨hin, ?_, fun x hx hp r hr => ?_⟩,
    ⟨fun x hx => by simpa [hs'] using hx, hbase, hlinked, fun _ he => he⟩, ?_⟩
  · refine (h.search.mono (fun _ _ _ => trivial) (fun _ _ _ _ _ _ _ => trivial)
      (fun x hx => visitOf_of_cyclic? (hbase x hx))
      fun x hx => lowOf_of_cyclic? (hbase x hx)).enter hms (fun _ _ => trivial) ?_ ?_
    · rw [visitOf, hself]
      rfl
    · rw [lowOf, hself]
      rfl
  · have hxm : x ≠ m := fun e => hp (e ▸ List.mem_cons_self ..)
    have hx := (List.mem_cons.1 hx).resolve_left hxm
    rw [requested_eq_of_cyclic? (hother x hxm)] at hr
    refine (h.reached x hx (fun hp' => hp (List.mem_cons_of_mem _ hp')) r hr).mono
      (fun _ he => he) hlinked (fun y hy => .inr ⟨List.mem_cons_of_mem _ hy, ?_⟩) ?_
    · exact visitOf_of_cyclic? (hbase y hy)
    · exact (lowOf_of_cyclic? (hother x hxm)).le
  · rw [requested, hs', cyclic?_updateCyclic _ hm, if_pos rfl, hc]
    rfl

@[simp] theorem has_reachOpen : (reachOpen m n s).Has x ↔ s.Has x := by
  rw [reachOpen]
  split
  · split
    · exact has_updateCyclic _
    · exact Iff.rfl
  · exact Iff.rfl

/-- What changes when an open module notes what another one reaches. -/
theorem reach_open (h : InLink journal start s stack) (hm : m ∈ stack) (hn : n ∈ stack) :
    InLink journal start (reachOpen m n s) stack ∧
      (reachOpen m n s).host = s.host ∧
      (∀ x, (reachOpen m n s).status x = s.status x) ∧
      (∀ x, (reachOpen m n s).requested x = s.requested x) ∧
      (∀ x, (reachOpen m n s).visitOf x = s.visitOf x) ∧
      (reachOpen m n s).lowOf m = min (s.lowOf m) (s.lowOf n) ∧
      ∀ x, x ≠ m → (reachOpen m n s).cyclic? x = s.cyclic? x := by
  obtain ⟨c, hc, -, hca⟩ := h.marked m hm
  obtain ⟨d, hd, -, hda⟩ := h.marked n hn
  have hs : d.status = .linking := by rw [← status_of_cyclic? hd, h.open_iff n |>.2 hn]
  have e : reachOpen m n s = s.updateCyclic m (·.reach d.ancestor) := by
    rw [reachOpen, hd]
    simp [hs]
  rw [e]
  refine ⟨h.updateOpen hm (fun _ => rfl) (fun _ hv => hv) (fun c hca => ?_), rfl,
    fun x => status_updateCyclic fun _ => rfl, fun x => requested_updateCyclic fun _ => rfl,
    fun x => visitOf_updateCyclic fun _ => rfl, lowOf_reach (h.has hm) hc hd hca hda,
    fun x hx => by rw [cyclic?_updateCyclic _ (h.has hm), if_neg hx]⟩
  obtain ⟨i, hi⟩ := Option.isSome_iff_exists.1 hca
  obtain ⟨j, hj⟩ := Option.isSome_iff_exists.1 hda
  simp [Cyclic.reach, hi, hj]

theorem reachOpen_of_linked (h : (s.status n).IsLinked) : reachOpen m n s = s := by
  rw [reachOpen]
  cases hc : s.cyclic? n with
  | none => rfl
  | some c =>
    rw [status_of_cyclic? hc] at h
    dsimp only
    rw [if_neg]
    intro e
    rw [e] at h
    exact h

theorem reached_reachOpen (h : InLink journal start s stack) (hm : m ∈ stack) (hn : n ∈ stack)
    (hr : s.Reached journal stack x r) : (reachOpen m n s).Reached journal stack x r := by
  obtain ⟨-, hhost, hstatus, -, hvisit, hlow, hother⟩ := reach_open h hm hn
  refine hr.mono (fun e he => by rwa [hhost]) (fun y hy => by rwa [hstatus])
    (fun y hy => .inr ⟨hy, hvisit y⟩) ?_
  by_cases e : x = m
  · subst e
    rw [hlow]
    exact min_le_left _ _
  · exact (lowOf_of_cyclic? (hother x e)).le

theorem reach (h : Searching journal start s t (m :: path)) (hn : n ∈ t.stack) :
    Searching journal start (reachOpen m n s) t (m :: path) := by
  have hm := h.search.head_mem
  obtain ⟨hin, hhost, hstatus, hrequested, hvisit, hlow, hother⟩ := reach_open h.toInLink hm hn
  refine ⟨hin, ?_, fun x hx hp r hr => ?_⟩
  · have hsearch : Search (fun _ _ => True) (fun _ _ => True) (reachOpen m n s).visitOf s.lowOf
        t.visits t.stack (m :: path) :=
      h.search.mono (fun _ _ e => e) (fun _ _ _ _ _ _ e => e) (fun x _ => hvisit x) fun _ _ => rfl
    exact hsearch.reach hn trivial hlow fun x hx => lowOf_of_cyclic? (hother x hx)
  · rw [hrequested] at hr
    exact reached_reachOpen h.toInLink hm hn (h.reached x hx hp r hr)

theorem leave (h : Searching journal start s t (n :: m :: path))
    (hlt : s.lowOf n < s.visitOf n)
    (hreached : ∀ r ∈ s.requested n, s.Reached journal t.stack n r) :
    Searching journal start (reachOpen m n s) t (m :: path) := by
  have hn := h.search.head_mem
  have hm := h.search.along m (by simp)
  obtain ⟨hin, hhost, hstatus, hrequested, hvisit, hlow, hother⟩ := reach_open h.toInLink hm hn
  refine ⟨hin, ?_, fun x hx hp r hr => ?_⟩
  · have hsearch : Search (fun _ _ => True) (fun _ _ => True) (reachOpen m n s).visitOf s.lowOf
        t.visits t.stack (n :: m :: path) :=
      h.search.mono (fun _ _ e => e) (fun _ _ _ _ _ _ e => e) (fun x _ => hvisit x) fun _ _ => rfl
    exact hsearch.leave (by rwa [hvisit]) trivial hlow fun x hx => lowOf_of_cyclic? (hother x hx)
  · rw [hrequested] at hr
    refine reached_reachOpen h.toInLink hm hn ?_
    by_cases e : x = n
    · subst e
      exact hreached r hr
    · exact h.reached x hx (fun hp' => hp ((List.mem_cons.1 hp').resolve_left e)) r hr

end Searching

/-- What the visit of `m` leaves: it is linked, or it belongs to a cycle that is still open and is
left to whoever requested it. -/
structure Visited (journal : σ → Journal) (start s : Machine σ κ) (t : Traversal)
    (path : List ModuleId) (m : ModuleId) (s' : Machine σ κ) (t' : Traversal) : Prop where
  suffix : t.stack <:+ t'.stack
  above : s.Above journal t.stack s'
  outcome : Searching journal start s' t' path ∧ ((s'.status m).IsLinked ∨ m ∈ t'.stack) ∨
    Searching journal start s' t' (m :: path) ∧ s'.lowOf m < s'.visitOf m ∧
      ∀ r ∈ s'.requested m, s'.Reached journal t'.stack m r

def VisitEnds (journal : σ → Journal) (start s : Machine σ κ) (t : Traversal)
    (path : List ModuleId) (m : ModuleId) (s' : Machine σ κ) (t' : Traversal) :
    Except LinkError Unit → Prop
  | .ok () => Visited journal start s t path m s' t'
  | .error _ => InLink journal start s' t'.stack

/-- A visit of `m` that was started above the modules of `base` and has handled some requests. -/
structure Requesting (journal : σ → Journal) (start before : Machine σ κ)
    (base path : List ModuleId) (m : ModuleId) (requests handled : List String)
    (s : Machine σ κ) (t : Traversal) : Prop where
  searching : Searching journal start s t (m :: path)
  suffix : (m :: base) <:+ t.stack
  above : before.Above journal base s
  requested : s.requested m = requests
  reached : ∀ r ∈ handled, s.Reached journal t.stack m r

namespace Requesting

variable {before : Machine σ κ} {requests handled : List String}

theorem not_mem_base (h : Requesting journal start before base path m requests handled s t) :
    m ∉ base := (List.nodup_cons.1 (h.searching.search.nodup.sublist h.suffix.sublist)).1

theorem base_mem (h : Requesting journal start before base path m requests handled s t)
    (hx : x ∈ base) : x ∈ t.stack := h.suffix.subset (List.mem_cons_of_mem _ hx)

theorem keeps (h : Requesting journal start before base path m requests handled s t)
    (hk : s.Keeps journal free s') (hfree : ∀ x, free x → x = m) :
    Requesting journal start before base path m requests handled s' t := by
  have hm := h.searching.search.head_mem
  have hopen : ∀ x, free x → x ∈ t.stack := fun x hx => hfree x hx ▸ hm
  refine ⟨h.searching.keeps hk hopen, h.suffix, ?_, ?_, fun r hr => ?_⟩
  · refine (Above.composes journal base).trans h.above
      (h.searching.above_keeps hk hopen base (fun x => h.base_mem) fun x hx hx' => ?_)
    exact h.not_mem_base (hfree x hx' ▸ hx)
  · rw [hk.requested (h.searching.has hm), h.requested]
  · exact h.searching.reached_keeps hk hopen hm (h.reached r hr)

/-- A request is handled when the module given for it was visited and its reach was noted. -/
theorem afterVisit (h : Requesting journal start before base path m requests handled s t)
    (he : Entry.resolved m r n ∈ journal s.host)
    (hv : Visited journal start s t (m :: path) n s' t') :
    Requesting journal start before base path m requests (handled ++ [r])
      (reachOpen m n s') t' := by
  have hm := h.searching.search.head_mem
  have hm' : m ∈ t'.stack := hv.suffix.subset hm
  have hfields := hv.above.cyclic m hm
  have hreached : ∀ r ∈ handled, s'.Reached journal t'.stack m r := fun r hr =>
    (h.reached r hr).mono hv.above.noted hv.above.linked
      (fun x hx => .inr ⟨hv.suffix.subset hx, visitOf_of_cyclic? (hv.above.cyclic x hx)⟩)
      (lowOf_of_cyclic? hfields).le
  have habove : before.Above journal base s' := (Above.composes journal base).trans h.above
    ⟨hv.above.has, fun x hx => hv.above.cyclic x (h.base_mem hx), hv.above.linked,
      hv.above.noted⟩
  have hrequested : s'.requested m = requests := by
    rw [requested_eq_of_cyclic? hfields, h.requested]
  have hsuffix := h.suffix.trans hv.suffix
  have hopen : ∀ path', Searching journal start s' t' path' → n ∈ t'.stack →
      Searching journal start (reachOpen m n s') t' (m :: path) →
        Requesting journal start before base path m requests (handled ++ [r])
          (reachOpen m n s') t' := by
    intro path' hs' hn hs
    obtain ⟨-, hhost, hstatus, hreq, hvisit, hlow, hother⟩ :=
      Searching.reach_open hs'.toInLink hm' hn
    refine ⟨hs, hsuffix, (Above.composes journal base).trans habove ⟨fun x hx => by simpa using hx,
      fun x hx => hother x fun e => h.not_mem_base (e ▸ hx), fun x hx => by rwa [hstatus],
      fun e he => by rwa [hhost]⟩, by rw [hreq, hrequested], fun r' hr' => ?_⟩
    rcases List.mem_append.1 hr' with hr' | hr'
    · exact Searching.reached_reachOpen hs'.toInLink hm' hn (hreached r' hr')
    · rw [List.mem_singleton.1 hr']
      refine ⟨n, by rw [hhost]; exact hv.above.noted _ he, .inr ⟨hn, ?_⟩⟩
      rw [hlow, hvisit]
      exact (min_le_right _ _).trans (hs'.search.low_le n hn)
  rcases hv.outcome with ⟨hs, hn | hn⟩ | ⟨hs, hlt, hr⟩
  · rw [Searching.reachOpen_of_linked hn]
    refine ⟨hs, hsuffix, habove, hrequested, fun r' hr' => ?_⟩
    rcases List.mem_append.1 hr' with hr' | hr'
    · exact hreached r' hr'
    · rw [List.mem_singleton.1 hr']
      exact ⟨n, hv.above.noted _ he, .inl hn⟩
  · exact hopen _ hs hn (hs.reach hn)
  · exact hopen _ hs hs.search.head_mem (hs.leave hlt hr)

/-- The requests of the cycle of a root are answered by linked modules or within the cycle. -/
theorem cycle_reached {pre : List ModuleId}
    (h : Requesting journal start before base path m requests requests s t)
    (hpre : pre ++ m :: base = t.stack) (hroot : s.lowOf m = s.visitOf m) :
    ∀ x ∈ pre ++ [m], ∀ r ∈ s.requested x, ∃ n, Entry.resolved x r n ∈ journal s.host ∧
      ((s.status n).IsLinked ∨ n ∈ pre ++ [m]) := by
  intro x hx r hr
  have hsearch := h.searching.search
  rw [← hpre] at hsearch
  have hx' : x ∈ pre ++ m :: base := by
    simp only [List.mem_append, List.mem_cons] at hx ⊢
    tauto
  have hxb : x ∉ base := by
    have hn := hsearch.nodup
    rw [List.append_cons] at hn
    exact fun hb => (List.nodup_append.1 hn).2.2 x hx x hb rfl
  have hmx : s.visitOf m ≤ s.visitOf x := by
    by_contra hlt
    exact hxb (hsearch.mem_below.2 ⟨hx', by omega⟩)
  have hreached : s.Reached journal t.stack x r := by
    by_cases e : x = m
    · subst e
      exact h.reached r (h.requested ▸ hr)
    · refine h.searching.reached x (hpre ▸ hx') (fun hp => ?_) r hr
      have := hsearch.path_lt ((List.mem_cons.1 hp).resolve_left e)
      omega
  obtain ⟨n, hn, hn' | ⟨hn', hle⟩⟩ := hreached
  · exact ⟨n, hn, .inl hn'⟩
  · refine ⟨n, hn, .inr ?_⟩
    have hlow := hsearch.low_head_le hx' hmx
    have hnb : n ∉ base := fun hb => by
      have := (hsearch.mem_below.1 hb).2
      omega
    rw [← hpre] at hn'
    simp only [List.mem_append, List.mem_cons] at hn' ⊢
    tauto

end Requesting

/-- What changes when the modules of a cycle are linked. -/
theorem link_cycle {cycle : List ModuleId} (hc : cycle.Nodup)
    (hm : ∀ x ∈ cycle, ∃ c, s.cyclic? x = some c) (hh : ∀ x ∈ cycle, s.Has x) :
    (cycle.foldl (fun s x => s.setStatus x .linked) s).host = s.host ∧
      (∀ x ∈ cycle, (cycle.foldl (fun s x => s.setStatus x .linked) s).status x = .linked) ∧
      (∀ x, x ∉ cycle →
        ((cycle.foldl (fun s x => s.setStatus x .linked) s).module x).kind = (s.module x).kind) ∧
      (∀ x, (cycle.foldl (fun s x => s.setStatus x .linked) s).requested x = s.requested x) ∧
      (∀ x, (cycle.foldl (fun s x => s.setStatus x .linked) s).visitOf x = s.visitOf x) ∧
      ∀ x, (cycle.foldl (fun s x => s.setStatus x .linked) s).lowOf x = s.lowOf x := by
  let f : Cyclic → Cyclic := fun c => { c with status := .linked }
  refine ⟨host_foldl_updateKind (ModuleKind.updateCyclic f) cycle, fun x hx => ?_, fun x hx => ?_,
    fun x => requested_foldl_updateCyclic (f := f) (fun _ => rfl) cycle,
    fun x => field_foldl_updateCyclic (f := f) (fun c => c.visit.getD 0) (fun _ => rfl) cycle,
    fun x => field_foldl_updateCyclic (f := f) (fun c => c.ancestor.getD 0) (fun _ => rfl) cycle⟩
  · obtain ⟨c, hcx⟩ := hm x hx
    have hf := cyclic?_foldl_updateCyclic (n := x) f hc hh
    rw [if_pos hx, hcx] at hf
    exact status_of_cyclic? hf
  · have hk := kind_foldl_updateKind (n := x)
      (ModuleKind.updateCyclic fun c => { c with status := .linked }) hc hh
    rwa [if_neg hx] at hk

/-- The cycle of a root is linked when all requests of the root are handled. -/
theorem Requesting.close {before : Machine σ κ} {requests : List String}
    (h : Requesting journal start before base path m requests requests s t)
    (hroot : s.lowOf m = s.visitOf m) :
    ∃ cycle, t.close m = (cycle, ⟨base, t.visits⟩) ∧
      Searching journal start (cycle.foldl (fun s x => s.setStatus x .linked) s)
        ⟨base, t.visits⟩ path ∧
      before.Above journal base (cycle.foldl (fun s x => s.setStatus x .linked) s) ∧
      ((cycle.foldl (fun s x => s.setStatus x .linked) s).status m).IsLinked := by
  obtain ⟨pre, hpre⟩ := h.suffix
  have hsplit : t.stack = (pre ++ [m]) ++ base := by simp [← hpre]
  have hsearch := h.searching.search
  have hnodup : ((pre ++ [m]) ++ base).Nodup := hsplit ▸ hsearch.nodup
  have hm : m ∉ pre := fun hm =>
    (List.nodup_append.1 (hpre ▸ hsearch.nodup)).2.2 m hm m (List.mem_cons_self ..) rfl
  have hcycle : ∀ x ∈ pre ++ [m], x ∈ t.stack := fun x hx => hsplit ▸ List.mem_append_left _ hx
  have hbase : ∀ x ∈ base, x ∉ pre ++ [m] := fun x hx hx' =>
    (List.nodup_append.1 hnodup).2.2 x hx' x hx rfl
  have hin : InLink journal start ((pre ++ [m]).foldl (fun s x => s.setStatus x .linked) s) base :=
    (hsplit ▸ h.searching.toInLink).close (h.cycle_reached hpre hroot)
  refine ⟨pre ++ [m], Traversal.close_of_stack hpre.symm hm, ?_⟩
  obtain ⟨hhost, hdone, hkind, hrequested, hvisit, hlow⟩ :=
    link_cycle (s := s) (List.nodup_append.1 hnodup).1
      (fun x hx => (h.searching.marked x (hcycle x hx)).imp fun _ hc => hc.1)
      fun x hx => h.searching.has (hcycle x hx)
  have hhas : ∀ x, s.Has x → ((pre ++ [m]).foldl (fun s x => s.setStatus x .linked) s).Has x :=
    fun x hx => (has_foldl_updateKind _ _).2 hx
  generalize (pre ++ [m]).foldl (fun s x => s.setStatus x .linked) s = s' at *
  have hdone' : ∀ x ∈ pre ++ [m], (s'.status x).IsLinked := fun x hx => by
    rw [hdone x hx]
    trivial
  have hlinked : ∀ x, (s.status x).IsLinked → (s'.status x).IsLinked := by
    intro x hx
    by_cases hx' : x ∈ pre ++ [m]
    · exact hdone' x hx'
    · rwa [status, hkind x hx', ← status]
  rw [← hpre] at hsearch
  refine ⟨⟨hin, ?_, fun x hx hp r hr => ?_⟩, ?_, hdone' m (by simp)⟩
  · exact hsearch.close.mono (fun _ _ e => e) (fun _ _ _ _ _ _ e => e) (fun x _ => hvisit x)
      fun x _ => hlow x
  · rw [hrequested] at hr
    have hxm := hsearch.mem_below.1 hx
    refine (h.searching.reached x (h.base_mem hx) (fun hp' => ?_) r hr).mono
      (fun e he => by rwa [hhost]) hlinked (fun y hy => ?_) (hlow x).le
    · obtain rfl | hp' := List.mem_cons.1 hp'
      · omega
      · exact hp hp'
    · rw [hsplit] at hy
      exact (List.mem_append.1 hy).imp (hdone' y) fun hy => ⟨hy, hvisit y⟩
  · refine (Above.composes journal base).trans h.above ⟨hhas, fun x hx => ?_, hlinked,
      fun e he => by rwa [hhost]⟩
    rw [cyclic?_eq, hkind x (hbase x hx), ← cyclic?_eq]

end Machine

end ModuleGraph

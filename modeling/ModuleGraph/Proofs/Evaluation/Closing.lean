import ModuleGraph.Evaluation.Basic
import ModuleGraph.Proofs.Evaluation.Search

/-! # Closing cycles

When the root of a cycle is left, the whole cycle is closed: its modules are complete, or they wait
for their turns. When something throws, all open modules fail. -/

namespace ModuleGraph.Graph

open Relation

variable {g g' : Graph} {m n x y d p q : ModuleId} {r : String} {path : List Frame}

/-! ## Closing a cycle -/

def close (g : Graph) (m : ModuleId) (cycle stack : List ModuleId) (path : List Frame) : Graph :=
  { g with
    fields := fun x => if x ∈ cycle then (g.fields x).close m else g.fields x
    stack, path }

section Close

variable {cycle stack : List ModuleId}

theorem fields_close_of_mem (h : x ∈ cycle) :
    (g.close m cycle stack path).fields x = (g.fields x).close m := if_pos h

theorem fields_close_of_not_mem (h : x ∉ cycle) :
    (g.close m cycle stack path).fields x = g.fields x := if_neg h

theorem field_close {β : Type} (g : Graph) (m : ModuleId) (cycle stack : List ModuleId)
    (path : List Frame) (f : Cyclic → β) (hf : ∀ c, f (Cyclic.close m c) = f c) (x : ModuleId) :
    f ((g.close m cycle stack path).fields x) = f (g.fields x) := by
  by_cases h : x ∈ cycle
  · rw [fields_close_of_mem h, hf]
  · rw [fields_close_of_not_mem h]

theorem status_close_of_open (h : g.Sound) (hx : x ∈ g.stack) :
    (Cyclic.close m (g.fields x)).status = .evaluated ∧ (g.fields x).order = .unset ∨
      (Cyclic.close m (g.fields x)).status = .evaluatingAsync ∧ (g.fields x).order.isTurn := by
  have ho := ((h.shaped x).opened ((h.open_iff x).2 hx)).2.2
  cases e : (g.fields x).order with
  | unset => exact .inl ⟨by simp [Cyclic.close, e], rfl⟩
  | turn k => exact .inr ⟨by simp [Cyclic.close, e], rfl⟩
  | done => exact (ho e).elim

theorem grows_close (h : g.Sound) (hcycle : ∀ x ∈ cycle, x ∈ g.stack) :
    g.Grows (g.close m cycle stack path) := by
  have hout : ∀ x, (g.fields x).root ≠ none → x ∉ cycle := fun x hx hc =>
    hx ((h.shaped x).opened ((h.open_iff x).2 (hcycle x hc))).2.1
  refine ⟨fun _ he => he, fun _ hl => hl, fun _ _ ht => ht, fun x y => ?_, fun x q hx => ?_,
    fun x _ => ?_,
    fun x _ ho => ?_, fun x _ => field_close g m cycle stack path (·.requested) (fun _ => rfl) x,
      fun x hx hs => ?_,
    fun d x hx => ?_, fun x hx => ?_⟩
  · rintro ⟨r, hr, hn⟩
    exact ⟨r, by rwa [field_close g m cycle stack path (·.requested) fun _ => rfl], hn⟩
  · rwa [fields_close_of_not_mem (hout x (by rw [hx]; simp))]
  · exact field_close g m cycle stack path (fun c => c.visit.getD 0) (fun _ => rfl) x
  · rwa [field_close g m cycle stack path (·.order) fun _ => rfl]
  · rwa [fields_close_of_not_mem (hout x hx)]
  · rwa [field_close g m cycle stack path (·.parents) fun _ => rfl]
  · have hc : x ∉ cycle := fun hc => by
      rw [Complete, (h.open_iff x).2 (hcycle x hc)] at hx
      cases hx.1
    rwa [Complete, fields_close_of_not_mem hc]

end Close

/-- The cycle of the module being visited, cut off the stack. -/
structure Root (g : Graph) (f : Frame) (path : List Frame) (pre post : List ModuleId) : Prop where
  path_eq : g.path = f :: path
  stack_eq : g.stack = pre ++ f.module :: post
  lowest : g.lowOf f.module = g.visitOf f.module
  left : g.Left f.module

namespace Root

variable {f : Frame} {pre post : List ModuleId}

theorem trail_eq (hr : g.Root f path pre post) : g.trail = f.module :: path.map (·.module) := by
  rw [trail, hr.path_eq, List.map_cons]

theorem search (hr : g.Root f path pre post) (h : g.Searching) :
    Search g.Requests g.Tied g.visitOf g.lowOf g.visits (pre ++ f.module :: post)
      (f.module :: path.map (·.module)) := by
  rw [← hr.trail_eq, ← hr.stack_eq]
  exact h.search

theorem mem_stack (hr : g.Root f path pre post) (hx : x ∈ pre ++ [f.module]) : x ∈ g.stack := by
  rw [hr.stack_eq]
  simp only [List.mem_append, List.mem_cons] at hx ⊢
  tauto

theorem mem_cycle_iff (hr : g.Root f path pre post) (h : g.Searching) (hx : x ∈ g.stack) :
    x ∈ pre ++ [f.module] ↔ g.visitOf f.module ≤ g.visitOf x := by
  have hs := hr.search h
  have hnodup := hs.nodup
  rw [List.append_cons] at hnodup
  rw [hr.stack_eq] at hx
  constructor
  · intro hc
    by_contra hlt
    exact (List.nodup_append.1 hnodup).2.2 x hc x (hs.mem_below.2 ⟨hx, by omega⟩) rfl
  · intro hle
    have hp : x ∉ post := fun hp => by
      have := (hs.mem_below.1 hp).2
      omega
    simp only [List.mem_append, List.mem_cons] at hx ⊢
    tauto

theorem not_mem_cycle (hr : g.Root f path pre post) (h : g.Searching) (hx : x ∈ post) :
    x ∉ pre ++ [f.module] := fun hc => by
  have hlt := ((hr.search h).mem_below.1 hx).2
  have := (hr.mem_cycle_iff h (hr.mem_stack hc)).1 hc
  omega

theorem mem_post_or (hr : g.Root f path pre post) (hx : x ∈ g.stack) :
    x ∈ pre ++ [f.module] ∨ x ∈ post := by
  rw [hr.stack_eq] at hx
  simp only [List.mem_append, List.mem_cons] at hx ⊢
  tauto

/-- What a module of the cycle sees belongs to the cycle. -/
theorem sees_cycle (hr : g.Root f path pre post) (h : g.Searching) (hx : x ∈ pre ++ [f.module])
    (hn : n ∈ g.stack) (hs : g.Sees x n) : n ∈ pre ++ [f.module] := by
  have hxs := hr.mem_stack hx
  rw [hr.mem_cycle_iff h hxs] at hx
  rw [hr.mem_cycle_iff h hn]
  have hlow := (hr.search h).low_head_le (hr.stack_eq ▸ hxs) hx
  have := hr.lowest
  have := hs.1
  omega

/-- What sees a module of the cycle belongs to the cycle. -/
theorem cycle_sees (hr : g.Root f path pre post) (h : g.Searching) (hx : x ∈ g.stack)
    (hn : n ∈ pre ++ [f.module]) (hs : g.Sees x n) : x ∈ pre ++ [f.module] := by
  rw [hr.mem_cycle_iff h hx]
  by_contra hlt
  have hlt' := hs.2 f.module (by rw [hr.trail_eq]; exact List.mem_cons_self ..) (by omega)
  have := (hr.mem_cycle_iff h (hr.mem_stack hn)).1 hn
  omega

theorem left_cycle (hr : g.Root f path pre post) (h : g.Searching) (hx : x ∈ pre ++ [f.module]) :
    g.Left x := by
  by_cases e : x = f.module
  · rw [e]
    exact hr.left
  · refine h.left x (hr.mem_stack hx) fun hp => ?_
    rw [hr.trail_eq] at hp
    have hlt := (hr.search h).path_lt ((List.mem_cons.1 hp).resolve_left e)
    have := (hr.mem_cycle_iff h (hr.mem_stack hx)).1 hx
    omega

abbrev closed (_ : g.Root f path pre post) : Graph := g.close f.module (pre ++ [f.module]) post path

theorem mem_cycle : f.module ∈ pre ++ [f.module] := List.mem_append_right _ (List.mem_cons_self ..)

/-! ### The fields after a cycle was closed -/

section Fields

variable (hr : g.Root f path pre post)
include hr

theorem fields_of_mem (hx : x ∈ pre ++ [f.module]) :
    hr.closed.fields x = (g.fields x).close f.module := fields_close_of_mem hx

theorem fields_of_not_mem (hx : x ∉ pre ++ [f.module]) : hr.closed.fields x = g.fields x :=
  fields_close_of_not_mem hx

theorem field {β : Type} (φ : Cyclic → β) (hφ : ∀ c, φ (Cyclic.close f.module c) = φ c)
    (x : ModuleId) : φ (hr.closed.fields x) = φ (g.fields x) := field_close g _ _ post path φ hφ x

theorem root_of_mem (hx : x ∈ pre ++ [f.module]) : (hr.closed.fields x).root = some f.module := by
  rw [hr.fields_of_mem hx]
  rfl

theorem failed_iff (x : ModuleId) : hr.closed.Failed x ↔ g.Failed x := by
  rw [Failed, Failed, hr.field (·.error) fun _ => rfl]

theorem weight_eq (x d : ModuleId) : hr.closed.weight x d = g.weight x d :=
  weight_congr (owes_congr (hr.field (·.order) (fun _ => rfl) d)
    (hr.field (·.error) (fun _ => rfl) d) Iff.rfl) (hr.field (·.parents) (fun _ => rfl) d)

variable (h : g.Searching)
include h

theorem grows : g.Grows hr.closed := grows_close h.toSound fun _ hx => hr.mem_stack hx

theorem evaluating (hx : x ∈ pre ++ [f.module]) : (g.fields x).status = .evaluating :=
  (h.open_iff x).2 (hr.mem_stack hx)

theorem opened (hx : x ∈ pre ++ [f.module]) : (g.fields x).error = none ∧
    (g.fields x).root = none ∧ (g.fields x).order ≠ .done :=
  (h.shaped x).opened (hr.evaluating h hx)

theorem status_of_mem (hx : x ∈ pre ++ [f.module]) :
    (hr.closed.fields x).status = .evaluated ∧ (g.fields x).order = .unset ∨
      (hr.closed.fields x).status = .evaluatingAsync ∧ (g.fields x).order.isTurn := by
  rw [hr.fields_of_mem hx]
  exact status_close_of_open h.toSound (hr.mem_stack hx)

end Fields

/-! ### Soundness -/

section Sound

variable (hr : g.Root f path pre post) (h : g.Searching)
include hr h

theorem open_iff (x : ModuleId) :
    (hr.closed.fields x).status = .evaluating ↔ x ∈ hr.closed.stack := by
  by_cases hx : x ∈ pre ++ [f.module]
  · refine iff_of_false (fun e => ?_) fun e => hr.not_mem_cycle h e hx
    obtain ⟨hs, -⟩ | ⟨hs, -⟩ := hr.status_of_mem h hx <;> cases hs.symm.trans e
  · rw [hr.fields_of_not_mem hx, h.open_iff]
    refine ⟨fun hs => (hr.mem_post_or hs).resolve_left hx, fun hp => ?_⟩
    rw [hr.stack_eq]
    simp [show x ∈ post from hp]

/-- A module of the cycle has run, or it waits for its turn. -/
theorem shaped_of_mem (hx : x ∈ pre ++ [f.module]) : hr.closed.Shaped x := by
  have hsx := h.shaped x
  have hawake : ¬(g.fields x).status.IsIdle := Status.awake_of_evaluating (hr.evaluating h hx)
  have hstatus := hr.status_of_mem h hx
  have hroot : (hr.closed.fields x).root ≠ none := by
    rw [hr.root_of_mem hx]
    rintro ⟨⟩
  have horder : (hr.closed.fields x).order = (g.fields x).order :=
    hr.field (·.order) (fun _ => rfl) x
  have herror : (hr.closed.fields x).error = none :=
    (hr.field (·.error) (fun _ => rfl) x).trans (hr.opened h hx).1
  constructor
  case idle =>
    intro hi
    obtain ⟨hs, -⟩ | ⟨hs, -⟩ := hstatus <;> rw [hs] at hi <;> exact hi.elim
  case opened =>
    intro hs
    obtain ⟨hs', -⟩ | ⟨hs', -⟩ := hstatus <;> cases hs'.symm.trans hs
  case waiting =>
    intro hs
    obtain ⟨hs', -⟩ | ⟨-, ho⟩ := hstatus
    · cases hs'.symm.trans hs
    · rw [horder]
      exact ⟨herror, hroot, ho⟩
  case complete =>
    intro hs _
    obtain ⟨-, ho⟩ | ⟨hs', -⟩ := hstatus
    · rw [horder, ho]
      exact ⟨hroot, by simp [AsyncOrder.isTurn], (hr.left_cycle h hx).1 ho⟩
    · cases hs'.symm.trans hs
  case unset =>
    rw [horder, hr.field (·.parents) fun _ => rfl]
    exact hsx.unset
  case turn =>
    rw [horder]
    exact hsx.turn
  case unstarted =>
    rw [horder, hr.field (·.error) fun _ => rfl, hr.field (·.pending) fun _ => rfl]
    exact hsx.unstarted
  case failed => exact fun hf => (hf herror).elim
  case done => exact fun _ => hroot
  case sized => exact fun _ => hsx.sized hawake
  case once => exact fun _ => hsx.once hawake
  case blamed => exact fun v hv => by cases herror.symm.trans hv

theorem shaped (x : ModuleId) : hr.closed.Shaped x := by
  by_cases hx : x ∈ pre ++ [f.module]
  · exact hr.shaped_of_mem h hx
  · exact (h.shaped x).of_fields (hr.fields_of_not_mem hx) (hr.grows h) id rfl le_rfl le_rfl

/-- Whoever waits for a module of the cycle belongs to the cycle. -/
theorem awaits (hx : x ∈ (hr.closed.fields d).parents) : hr.closed.Awaits x d := by
  rw [hr.field (·.parents) fun _ => rfl] at hx
  have ha := h.awaits d x hx
  have hgrows := hr.grows h
  constructor
  case awake =>
    by_cases hxc : x ∈ pre ++ [f.module]
    · obtain ⟨hs, -⟩ | ⟨hs, -⟩ := hr.status_of_mem h hxc <;> rw [hs] <;> exact id
    · rw [hr.fields_of_not_mem hxc]
      exact ha.awake
  case turn =>
    rw [hr.field (·.order) fun _ => rfl, hr.field (·.order) fun _ => rfl]
    exact ha.turn
  case failed =>
    rw [hr.failed_iff, hr.failed_iff]
    exact ha.failed
  case started => exact fun hs => hgrows.complete d (ha.started hs)
  case opened =>
    intro hd
    have hdg : d ∈ g.stack := by
      rw [hr.stack_eq]
      simp [show d ∈ post from hd]
    refine (hr.mem_post_or (ha.opened hdg)).resolve_left fun hxc => ?_
    exact hr.not_mem_cycle h hd (hr.sees_cycle h hxc hdg (h.sees d hdg x hx))
  case root =>
    intro q hq hne
    by_cases hd : d ∈ pre ++ [f.module]
    · rw [hr.root_of_mem hd] at hq
      cases hq
      have hdg := hr.mem_stack hd
      exact hr.root_of_mem (hr.cycle_sees h (ha.opened hdg) hd (h.sees d hdg x hx))
    · rw [hr.fields_of_not_mem hd] at hq
      exact hgrows.root x q (ha.root q hq hne)
  case reach => exact ReflTransGen.mono hgrows.requests _ _ ha.reach

theorem balanced (hx : (hr.closed.fields x).status = .evaluating ∨
    (hr.closed.fields x).status = .evaluatingAsync) (hdoom : x ∉ g.doom) :
    hr.closed.Balanced x := by
  have hx' : (g.fields x).status = .evaluating ∨ (g.fields x).status = .evaluatingAsync := by
    by_cases hxc : x ∈ pre ++ [f.module]
    · exact .inl (hr.evaluating h hxc)
    · rwa [hr.fields_of_not_mem hxc] at hx
  refine (h.balanced x hx' hdoom).congr (hr.field (·.pending) (fun _ => rfl) x)
    (congrArg (· + g.debt.count x) (waits_of_weight rfl (hr.weight_eq x))) fun hf => ?_
  by_cases hxc : x ∈ pre ++ [f.module]
  · obtain ⟨he, hroot, -⟩ := hr.opened h hxc
    rw [RootFailed, hroot, Option.getD_none] at hf
    exact (hf he).elim
  · rwa [RootFailed, hr.fields_of_not_mem hxc, hr.failed_iff]

/-- The module being visited is the root of its cycle: each other module hangs on an earlier one of
the cycle, and it is waited for by that one if it has a turn. -/
theorem member_of_mem (hx : x ∈ pre ++ [f.module]) : hr.closed.Member f.module x := by
  have hs := hr.search h
  have hgrows := hr.grows h
  have hxs := hr.stack_eq ▸ hr.mem_stack hx
  have hle := (hr.mem_cycle_iff h (hr.mem_stack hx)).1 hx
  constructor
  case root => exact hr.root_of_mem mem_cycle
  case finished =>
    obtain ⟨e, -⟩ | ⟨e, -⟩ := hr.status_of_mem h mem_cycle
    · exact .inr e
    · exact .inl e
  case up => exact ReflTransGen.mono hgrows.requests _ _ (hs.reaches_root hr.lowest _ x hxs rfl hle)
  case down => exact ReflTransGen.mono hgrows.requests _ _ (hs.reached_from_head hxs hle)
  case hung =>
    intro hne
    have hlt : g.visitOf f.module < g.visitOf x :=
      lt_of_le_of_ne hle fun e => hne (hs.visit_injective hs.head_mem hxs e).symm
    obtain ⟨y, hy, hmy, hyx, -, htied, -⟩ := hs.hung_in_cycle hxs hlt
    have hyc : y ∈ pre ++ [f.module] := (hr.mem_cycle_iff h (hr.stack_eq ▸ hy)).2 hmy
    refine ⟨y, hr.root_of_mem hyc, ?_, fun ho => ?_⟩
    · rw [visitOf, visitOf, hr.field (·.visit) fun _ => rfl, hr.field (·.visit) fun _ => rfl]
      exact hyx
    · rw [hr.field (·.order) fun _ => rfl] at ho
      rw [hr.field (·.parents) fun _ => rfl]
      exact htied ho

theorem member (hx : (hr.closed.fields x).root = some q) : hr.closed.Member q x := by
  by_cases hxc : x ∈ pre ++ [f.module]
  · obtain rfl := Option.some.inj ((hr.root_of_mem hxc).symm.trans hx)
    exact hr.member_of_mem h hxc
  · rw [hr.fields_of_not_mem hxc] at hx
    exact (h.member x q hx).grows hx (hr.grows h)

/-- What a module of the cycle has seen belongs to the cycle now. -/
theorem settled (hx : (hr.closed.fields x).root = some q)
    (hrx : r ∈ (hr.closed.fields x).requested) : hr.closed.Settled q x r := by
  have hgrows := hr.grows h
  by_cases hxc : x ∈ pre ++ [f.module]
  · obtain rfl := Option.some.inj ((hr.root_of_mem hxc).symm.trans hx)
    rw [hr.field (·.requested) fun _ => rfl] at hrx
    obtain ⟨n, hn, hl | ⟨hns, hsee⟩ | ⟨p, hp, hc | hw⟩⟩ := (hr.left_cycle h hxc).2 r hrx
    · exact ⟨n, hn, .inl hl⟩
    · exact ⟨n, hn, .inr (.inl (hr.root_of_mem (hr.sees_cycle h hxc hns hsee)))⟩
    · exact ⟨n, hn, .inr (.inr ⟨p, hgrows.root n p hp, .inl (hgrows.complete p hc)⟩)⟩
    · exact ⟨n, hn, .inr (.inr ⟨p, hgrows.root n p hp, .inr (hgrows.parents p x hw)⟩)⟩
  · rw [hr.fields_of_not_mem hxc] at hx hrx
    exact (h.settled x q hx r hrx).grows hgrows

omit h in
/-- The modules that have got a root belong to the one cycle. -/
theorem eq_of_new_root (hx : (g.fields x).root = none)
    (hq : (hr.closed.fields x).root = some q) : q = f.module := by
  by_cases hxc : x ∈ pre ++ [f.module]
  · exact Option.some.inj (hq.symm.trans (hr.root_of_mem hxc))
  · rw [hr.fields_of_not_mem hxc, hx] at hq
    cases hq

theorem sound : hr.closed.Sound where
  nodup := (List.nodup_cons.1 (List.nodup_append.1 (hr.search h).nodup).2.1).2
  open_iff := hr.open_iff h
  shaped := hr.shaped h
  distinct x y k hx hy := by
    rw [hr.field (·.order) fun _ => rfl] at hx hy
    exact h.distinct x y k hx hy
  awaits _ _ hx := hr.awaits h hx
  balanced _ hx hdoom := hr.balanced h hx hdoom
  member _ _ hx := hr.member h hx
  settled _ _ hx _ hrx := hr.settled h hx hrx
  separate := h.separate_of_grows (hr.grows h) fun _ _ _ _ hx hy hp hq =>
    (hr.eq_of_new_root hx hp).trans (hr.eq_of_new_root hy hq).symm
  ready x hx := by
    rw [show hr.closed.ready = [] from h.alone.ready] at hx
    cases hx
  running x ho he hp hxr hxl := by
    rw [hr.field (·.order) fun _ => rfl] at ho
    rw [hr.field (·.error) fun _ => rfl] at he
    rw [hr.field (·.pending) fun _ => rfl] at hp
    rw [hr.field (·.hasAwait) fun _ => rfl]
    exact h.running x ho he hp hxr hxl

end Sound

theorem searching (hr : g.Root f path pre post) (h : g.Searching) : hr.closed.Searching := by
  have hgrows := hr.grows h
  have hpost : ∀ {x}, x ∈ post → x ∈ g.stack := fun {x} hx => by
    rw [hr.stack_eq]
    simp [hx]
  have hvisit : ∀ x, hr.closed.visitOf x = g.visitOf x := hr.field (fun c => c.visit.getD 0)
    fun _ => rfl
  have hlow : ∀ x, hr.closed.lowOf x = g.lowOf x := hr.field (fun c => c.ancestor.getD 0)
    fun _ => rfl
  have hsees : ∀ {x n}, g.Sees x n → hr.closed.Sees x n := fun {x n} hs => by
    refine ⟨by rw [hlow, hvisit]; exact hs.1, fun a ha => ?_⟩
    rw [hvisit, hvisit, hvisit]
    refine hs.2 a ?_
    rw [hr.trail_eq]
    exact List.mem_cons_of_mem _ ha
  -- A module below the cycle sees only such modules.
  have hbelow : ∀ {x}, x ∈ post → ∀ n ∈ g.stack, g.Sees x n →
      n ∈ hr.closed.stack ∧ hr.closed.Sees x n := fun {x} hx n hn hs =>
    ⟨(hr.mem_post_or hn).resolve_left fun hc =>
      hr.not_mem_cycle h hx (hr.cycle_sees h (hpost hx) hc hs), hsees hs⟩
  have hwork : ∀ x, g.SameWork hr.closed x := fun x =>
    ⟨hr.field (·.requested) (fun _ => rfl) x, hr.field (·.order) (fun _ => rfl) x, rfl⟩
  have hpath : ∀ f₁ ∈ path, f₁.module ∈ post := fun f₁ hf₁ =>
    (hr.search h).close.along _ (List.mem_map_of_mem hf₁)
  refine ⟨hr.sound h, ⟨h.alone.ready, h.alone.released, h.alone.debt, h.alone.doom⟩, ?_,
    fun x hx => ?_, fun f₁ hf₁ => ?_, fun x hx hp => ?_, fun d hd x hx => ?_⟩
  · refine (hr.search h).close.mono hgrows.requests (fun x _ y _ _ _ ht ho => ?_)
      (fun x _ => hvisit x) fun x _ => hlow x
    rw [(hwork y).order] at ho
    rw [hr.field (·.parents) fun _ => rfl]
    exact ht ho
  · rw [hr.field (·.visit) fun _ => rfl, hr.field (·.ancestor) fun _ => rfl]
    exact h.marked x (hpost hx)
  · have hold := h.frames f₁ (hr.path_eq ▸ List.mem_cons_of_mem _ hf₁)
    refine ⟨by rw [(hwork _).requested, hold.requested], fun r hrf => ?_, fun e => ?_⟩
    · exact (hold.handled r hrf).mono hgrows (hbelow (hpath f₁ hf₁))
    · rw [(hwork _).order, (hwork _).starts]
      exact hold.fresh e
  · have hxm : x ≠ f.module := by
      rintro rfl
      exact hr.not_mem_cycle h hx mem_cycle
    have hold := h.left x (hpost hx) fun e => by
      rw [hr.trail_eq] at e
      exact hp ((List.mem_cons.1 e).resolve_left hxm)
    refine ⟨fun ho => ?_, fun r hrx => ?_⟩
    · rw [(hwork x).order] at ho
      exact hold.1 ho
    · rw [(hwork x).requested] at hrx
      exact (hold.2 r hrx).mono hgrows (hbelow hx)
  · rw [hr.field (·.parents) fun _ => rfl] at hx
    exact hsees (h.sees d (hpost hd) x hx)

end Root

/-! ## Failing together -/

/-- Every open module may blame what the one being visited blames. -/
theorem Searching.blames {f : Frame} {e : Value} (h : g.Searching) (hpath : g.path = f :: path)
    (hb : g.Blames f.module e) : ∀ x ∈ g.stack, g.Blames x e := fun x hx => by
  have hs := h.search
  rw [trail, hpath] at hs
  exact hb.of_reach (hs.reaches_head _ x hx rfl)

def abandon (g : Graph) (e : Value) : Graph :=
  { g with
    fields := fun x => if x ∈ g.stack then (g.fields x).fail e else g.fields x
    stack := []
    path := [] }

section Abandon

variable {e : Value}

theorem fields_abandon_of_mem (h : x ∈ g.stack) : (g.abandon e).fields x = (g.fields x).fail e :=
  if_pos h

theorem fields_abandon_of_not_mem (h : x ∉ g.stack) : (g.abandon e).fields x = g.fields x :=
  if_neg h

theorem field_abandon {β : Type} (f : Cyclic → β) (hf : ∀ c, f (Cyclic.fail c e) = f c)
    (x : ModuleId) : f ((g.abandon e).fields x) = f (g.fields x) := by
  by_cases h : x ∈ g.stack
  · rw [fields_abandon_of_mem h, hf]
  · rw [fields_abandon_of_not_mem h]

theorem grows_abandon (h : g.Sound) : g.Grows (g.abandon e) := by
  have hout : ∀ x, (g.fields x).root ≠ none → x ∉ g.stack := fun x hx hs =>
    hx ((h.shaped x).opened ((h.open_iff x).2 hs)).2.1
  refine ⟨fun _ he => he, fun _ hl => hl, fun _ _ ht => ht, fun x y => ?_, fun x q hx => ?_,
    fun x _ => ?_,
    fun x _ ho => ?_, fun x _ => field_abandon (·.requested) (fun _ => rfl) x, fun x hx hs => ?_,
    fun d x hx => ?_, fun x hx => ?_⟩
  · rintro ⟨r, hr, hn⟩
    exact ⟨r, by rwa [field_abandon (·.requested) fun _ => rfl], hn⟩
  · rwa [field_abandon (·.root) fun _ => rfl]
  · exact field_abandon (fun c => c.visit.getD 0) (fun _ => rfl) x
  · rwa [field_abandon (·.order) fun _ => rfl]
  · rwa [fields_abandon_of_not_mem (hout x hx)]
  · rwa [field_abandon (·.parents) fun _ => rfl]
  · have hs : x ∉ g.stack := fun hs => by
      rw [Complete, (h.open_iff x).2 hs] at hx
      cases hx.1
    rwa [Complete, fields_abandon_of_not_mem hs]

theorem Failed.abandon (h : g.Failed x) : (g.abandon e).Failed x := by
  by_cases hs : x ∈ g.stack
  · rw [Failed, fields_abandon_of_mem hs]
    rintro ⟨⟩
  · rwa [Failed, fields_abandon_of_not_mem hs]

theorem not_mem_of_error_abandon (h : ((g.abandon e).fields x).error = none) : x ∉ g.stack :=
  fun hs => by
    rw [fields_abandon_of_mem hs] at h
    cases h

theorem shaped_abandon_of_mem (h : g.Sound) (hx : x ∈ g.stack) (hblame : g.Blames x e) :
    (g.abandon e).Shaped x := by
  have hsx := h.shaped x
  have hopen := (h.open_iff x).2 hx
  obtain ⟨-, hroot, hdone⟩ := hsx.opened hopen
  have hawake : ¬(g.fields x).status.IsIdle := Status.awake_of_evaluating hopen
  constructor <;> rw [fields_abandon_of_mem hx]
  case idle => exact fun hi => hi.elim
  case opened => exact fun hs => nomatch hs
  case waiting => exact fun hs => nomatch hs
  case complete => exact fun _ he => nomatch he
  case unset => exact hsx.unset
  case turn => exact hsx.turn
  case unstarted => exact fun _ he => nomatch he
  case failed => exact fun _ hr => (hr hroot).elim
  case done => exact fun hd => (hdone hd).elim
  case sized => exact fun _ => hsx.sized hawake
  case once => exact fun _ => hsx.once hawake
  case blamed => exact fun v hv => Option.some.inj hv ▸ hblame.grows (grows_abandon h)

/-- What fails together is what was open. Whoever waits for any of it was open, too. -/
theorem awaits_abandon (h : g.Sound) (ha : g.Awaits x d) : (g.abandon e).Awaits x d := by
  have hgrows : g.Grows (g.abandon e) := grows_abandon h
  constructor
  case awake =>
    by_cases hs : x ∈ g.stack
    · rw [fields_abandon_of_mem hs]
      exact id
    · rw [fields_abandon_of_not_mem hs]
      exact ha.awake
  case turn =>
    rw [field_abandon (·.order) fun _ => rfl, field_abandon (·.order) fun _ => rfl]
    exact ha.turn
  case failed =>
    intro hf
    by_cases hd : d ∈ g.stack
    · rw [Failed, fields_abandon_of_mem (ha.opened hd)]
      exact .inl fun e => by cases e
    · rw [Failed, fields_abandon_of_not_mem hd] at hf
      exact (ha.failed hf).imp Failed.abandon id
  case started => exact fun hs => hgrows.complete d (ha.started hs)
  case opened => rintro ⟨⟩
  case root =>
    rw [field_abandon (·.root) fun _ => rfl, field_abandon (·.root) fun _ => rfl]
    exact ha.root
  case reach => exact ReflTransGen.mono hgrows.requests _ _ ha.reach

/-- What a module waits for that was not open is not open either. -/
theorem waits_abandon (h : g.Sound) (hx : x ∉ g.stack) : (g.abandon e).waits x = g.waits x := by
  refine waits_of_weight rfl fun d => ?_
  by_cases hd : d ∈ g.stack
  · have hcount : (g.fields d).parents.count x = 0 :=
      List.count_eq_zero.2 fun hp => hx ((h.awaits d x hp).opened hd)
    rw [weight, weight, field_abandon (·.parents) fun _ => rfl, hcount, ite_self, ite_self]
  · exact weight_congr (owes_congr (field_abandon (·.order) (fun _ => rfl) d)
      (by rw [fields_abandon_of_not_mem hd]) Iff.rfl) (field_abandon (·.parents) (fun _ => rfl) d)

theorem Sound.abandon (h : g.Sound) (hready : g.ready = []) {e : Value}
    (hblame : ∀ x ∈ g.stack, g.Blames x e) : (g.abandon e).Sound := by
  have hgrows : g.Grows (g.abandon e) := grows_abandon h
  obtain ⟨hmember, hsettled, hseparate⟩ := h.member_of_grows hgrows fun x q hx => by
    rwa [field_abandon (·.root) fun _ => rfl] at hx
  exact
    { nodup := List.nodup_nil
      open_iff := fun x => by
        refine iff_of_false (fun hs => ?_) List.not_mem_nil
        by_cases hx : x ∈ g.stack
        · rw [fields_abandon_of_mem hx] at hs
          cases hs
        · rw [fields_abandon_of_not_mem hx] at hs
          exact hx ((h.open_iff x).1 hs)
      shaped := fun x => by
        by_cases hs : x ∈ g.stack
        · exact shaped_abandon_of_mem h hs (hblame x hs)
        · exact (h.shaped x).of_fields (fields_abandon_of_not_mem hs) hgrows id rfl le_rfl le_rfl
      distinct := fun x y k hx hy => by
        rw [field_abandon (·.order) fun _ => rfl] at hx hy
        exact h.distinct x y k hx hy
      awaits := fun d x hx => by
        rw [field_abandon (·.parents) fun _ => rfl] at hx
        exact awaits_abandon h (h.awaits d x hx)
      balanced := fun x hx hdoom => by
        have hs : x ∉ g.stack := fun hs => by
          rw [fields_abandon_of_mem hs] at hx
          rcases hx with hx | hx <;> cases hx
        rw [fields_abandon_of_not_mem hs] at hx
        refine (h.balanced x hx hdoom).congr (by rw [fields_abandon_of_not_mem hs])
          (congrArg (· + g.debt.count x) (waits_abandon h hs)) fun hf => ?_
        rw [RootFailed, fields_abandon_of_not_mem hs]
        exact hf.abandon
      member := hmember
      settled := hsettled
      separate := hseparate
      ready := fun x hx => by
        rw [show (g.abandon e).ready = [] from hready] at hx
        cases hx
      running := fun x ho he hp hxr hxl => by
        have hs := not_mem_of_error_abandon he
        rw [fields_abandon_of_not_mem hs] at ho he hp ⊢
        exact h.running x ho he hp hxr hxl }

end Abandon

end ModuleGraph.Graph

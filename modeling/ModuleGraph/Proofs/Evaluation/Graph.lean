import Mathlib.Algebra.Order.BigOperators.Group.Finset
import ModuleGraph.Proofs.DepthFirst

/-! # What evaluation sees of a machine

Evaluation reads and writes the cyclic fields of the modules. The graph shows these fields together
with the journal, and beside them the search that is going on and the modules that are ready to
run. In a sound graph the number of things that a module waits for is the number of times that it
is noted as a parent of a module that still owes it its end. -/

namespace ModuleGraph

open Relation

def Status.IsIdle : Status → Prop
  | .unlinked | .linking | .linked => True
  | .evaluating | .evaluatingAsync | .evaluated => False

theorem Status.cases_awake {s : Status} (h : ¬s.IsIdle) :
    s = .evaluating ∨ s = .evaluatingAsync ∨ s = .evaluated := by
  cases s <;> simp [IsIdle] at h ⊢

theorem Status.awake_of_evaluating {s : Status} (h : s = .evaluating) : ¬s.IsIdle := by
  rw [h]
  exact id

theorem Status.awake_of_evaluatingAsync {s : Status} (h : s = .evaluatingAsync) : ¬s.IsIdle := by
  rw [h]
  exact id

theorem Status.awake_of_evaluated {s : Status} (h : s = .evaluated) : ¬s.IsIdle := by
  rw [h]
  exact id

def Cyclic.IsFresh (c : Cyclic) : Prop :=
  c.error = none ∧ c.root = none ∧ c.order = .unset ∧ c.parents = []

/-- A module that is being visited: the requests that were handled, those that are left, and whether
it has neither run nor got a turn. -/
structure Frame where
  module : ModuleId
  asked : List String
  todo : List String
  fresh : Bool

structure Graph where
  fields : ModuleId → Cyclic
  /-- The modules that can take part in cycles. -/
  cyclic : ModuleId → Prop
  /-- The leaves that were evaluated without an error. -/
  leaf : ModuleId → Prop
  /-- The values that modules have thrown. -/
  threw : ModuleId → Value → Prop
  journal : Journal
  /-- How many modules there are. -/
  size : Nat
  nextTurn : Nat
  stack : List ModuleId
  /-- The modules that are being visited, the last one first. -/
  path : List Frame
  visits : Nat
  /-- The modules that are ready and have not been run yet. -/
  ready : List ModuleId
  /-- The modules whose end is told to their parents before they are run. -/
  released : List ModuleId
  /-- The modules that have not been told yet that something they wait for is done, once for each
  time that they are to be told. -/
  debt : List ModuleId
  /-- The modules that have to fail because something they wait for has failed. -/
  doom : List ModuleId

namespace Graph

variable (g : Graph) (x y d : ModuleId)

def trail : List ModuleId := g.path.map (·.module)

def Requests : Prop := ∃ r ∈ (g.fields x).requested, Entry.resolved x r y ∈ g.journal

def visitOf : Nat := (g.fields x).visit.getD 0

def lowOf : Nat := (g.fields x).ancestor.getD 0

def starts : Nat := g.journal.starts x

def Ended : Prop := Entry.ended x ∈ g.journal

/-- A module requests another one, which is no leaf that was evaluated. -/
def Leads : Prop := g.Requests x y ∧ ¬g.leaf y

def Complete : Prop := (g.fields x).status = .evaluated ∧ (g.fields x).error = none

def Failed : Prop := (g.fields x).error ≠ none

/-- A module that `x` requests, directly or not, has thrown the value. -/
def Blames (e : Value) : Prop := ∃ y, ReflTransGen g.Requests x y ∧ g.threw y e

def RootFailed : Prop := g.Failed ((g.fields x).root.getD x)

/-- Whether the end of a module is still to be told to its parents. -/
def owes : Bool :=
  (g.fields d).order.isTurn && (g.fields d).error.isNone && !g.released.contains d

/-- How often `d` owes its end to `x`. -/
def weight : Nat := if g.owes d then (g.fields d).parents.count x else 0

def waits : Nat := ∑ i ∈ Finset.range g.size, g.weight x ⟨i⟩

structure Shaped : Prop where
  idle : (g.fields x).status.IsIdle → (g.fields x).IsFresh ∧ (g.cyclic x → g.starts x = 0)
  opened : (g.fields x).status = .evaluating →
    (g.fields x).error = none ∧ (g.fields x).root = none ∧ (g.fields x).order ≠ .done
  waiting : (g.fields x).status = .evaluatingAsync →
    (g.fields x).error = none ∧ (g.fields x).root ≠ none ∧ (g.fields x).order.isTurn
  complete : (g.fields x).status = .evaluated → (g.fields x).error = none →
    (g.fields x).root ≠ none ∧ ¬(g.fields x).order.isTurn ∧ g.starts x = 1 ∧ g.Ended x
  unset : (g.fields x).order = .unset → (g.fields x).parents = []
  turn : ∀ k, (g.fields x).order = .turn k → k < g.nextTurn
  unstarted : (g.fields x).order.isTurn → (g.fields x).error = none →
    (g.fields x).pending ≠ some 0 → g.starts x = 0
  /-- A module whose cycle was closed fails only while it waits. -/
  failed : (g.fields x).error ≠ none → (g.fields x).root ≠ none → (g.fields x).order = .done
  done : (g.fields x).order = .done → (g.fields x).root ≠ none
  sized : ¬(g.fields x).status.IsIdle → x.index < g.size
  once : ¬(g.fields x).status.IsIdle → g.starts x ≤ 1
  blamed : ∀ e, (g.fields x).error = some e → g.Blames x e

/-- What it means that `x` is noted as a parent of `d`. -/
structure Awaits : Prop where
  awake : ¬(g.fields x).status.IsIdle
  turn : ∀ k k', (g.fields d).order = .turn k → (g.fields x).order = .turn k' → k < k'
  failed : g.Failed d → g.Failed x ∨ x ∈ g.doom
  started : g.starts x ≠ 0 → g.Complete d
  opened : d ∈ g.stack → x ∈ g.stack
  root : ∀ q, (g.fields d).root = some q → q ≠ d → (g.fields x).root = some q
  reach : ReflTransGen g.Requests x d

/-- What it means that `q` is the root of the cycle of `x`. -/
structure Member (q x : ModuleId) : Prop where
  root : (g.fields q).root = some q
  finished : (g.fields q).status = .evaluatingAsync ∨ (g.fields q).status = .evaluated
  up : ReflTransGen g.Requests x q
  down : ReflTransGen g.Requests q x
  hung : x ≠ q → ∃ y, (g.fields y).root = some q ∧ g.visitOf y < g.visitOf x ∧
    ((g.fields x).order ≠ .unset → y ∈ (g.fields x).parents)

/-- A request of a module of the cycle of `q` leads to an evaluated leaf, into the cycle, or to a
cycle that is complete or that the module waits for. -/
def Settled (q x : ModuleId) (r : String) : Prop :=
  ∃ n, Entry.resolved x r n ∈ g.journal ∧
    (g.leaf n ∨ (g.fields n).root = some q ∨
      ∃ p, (g.fields n).root = some p ∧ (g.Complete p ∨ x ∈ (g.fields p).parents))

def Balanced : Prop :=
  ∃ k, (g.fields x).pending = some k ∧ g.waits x + g.debt.count x ≤ k ∧
    (¬g.RootFailed x → k ≤ g.waits x + g.debt.count x)

structure Sound : Prop where
  nodup : g.stack.Nodup
  open_iff : ∀ x, (g.fields x).status = .evaluating ↔ x ∈ g.stack
  shaped : ∀ x, g.Shaped x
  distinct : ∀ x y k, (g.fields x).order = .turn k → (g.fields y).order = .turn k → x = y
  awaits : ∀ d, ∀ x ∈ (g.fields d).parents, g.Awaits x d
  balanced : ∀ x, (g.fields x).status = .evaluating ∨ (g.fields x).status = .evaluatingAsync →
    x ∉ g.doom → g.Balanced x
  member : ∀ x q, (g.fields x).root = some q → g.Member q x
  settled : ∀ x q, (g.fields x).root = some q → ∀ r ∈ (g.fields x).requested, g.Settled q x r
  /-- Closed cycles that lead to each other are the same. -/
  separate : g.journal.Stable → ∀ x y p q, (g.fields x).root = some p → (g.fields y).root = some q →
    ReflTransGen g.Leads x y → ReflTransGen g.Leads y x → p = q
  ready : ∀ x ∈ g.ready, (g.fields x).error = none →
    (g.fields x).status = .evaluatingAsync ∧ (g.fields x).pending = some 0 ∧ g.starts x = 0
  running : ∀ x, (g.fields x).order.isTurn → (g.fields x).error = none →
    (g.fields x).pending = some 0 → x ∉ g.ready → x ∉ g.released →
      g.starts x ≤ 1 ∧ (g.fields x).hasAwait

variable {g : Graph} {g' : Graph} {x y d q : ModuleId} {r : String}

/-! ## Waiting -/

theorem weight_eq_zero (h : (g.fields d).parents = []) : g.weight x d = 0 := by
  simp [weight, h]

theorem owes_congr (ho : (g'.fields d).order = (g.fields d).order)
    (he : (g'.fields d).error = (g.fields d).error) (hr : d ∈ g'.released ↔ d ∈ g.released) :
    g'.owes d = g.owes d := by
  have hc : g'.released.contains d = g.released.contains d := by
    rw [Bool.eq_iff_iff, List.contains_iff_mem, List.contains_iff_mem, hr]
  rw [owes, owes, ho, he, hc]

theorem weight_congr (ho : g'.owes d = g.owes d)
    (hp : (g'.fields d).parents = (g.fields d).parents) : g'.weight x d = g.weight x d := by
  rw [weight, weight, ho, hp]

theorem waits_congr (hs : g.size ≤ g'.size)
    (h : ∀ d, d.index < g.size → g'.weight x d = g.weight x d)
    (h0 : ∀ d, g.size ≤ d.index → g'.weight x d = 0) : g'.waits x = g.waits x := by
  have hsub : Finset.range g.size ⊆ Finset.range g'.size := Finset.range_subset_range.2 hs
  rw [waits, ← Finset.sum_subset hsub fun i _ hi => h0 ⟨i⟩ (by simpa using hi), waits]
  exact Finset.sum_congr rfl fun i hi => h ⟨i⟩ (by simpa using hi)

theorem waits_change (hs : g'.size = g.size) (hd : d.index < g.size)
    (h : ∀ d', d' ≠ d → g'.weight x d' = g.weight x d') :
    g'.waits x + g.weight x d = g.waits x + g'.weight x d := by
  have hmem : d.index ∈ Finset.range g.size := Finset.mem_range.2 hd
  have hrest : ∑ i ∈ (Finset.range g.size).erase d.index, g'.weight x ⟨i⟩ =
      ∑ i ∈ (Finset.range g.size).erase d.index, g.weight x ⟨i⟩ :=
    Finset.sum_congr rfl fun i hi => h ⟨i⟩ fun e => (Finset.mem_erase.1 hi).1 (by rw [← e])
  rw [waits, waits, hs, ← Finset.add_sum_erase _ _ hmem, ← Finset.add_sum_erase _ _ hmem, hrest]
  change g'.weight x d + _ + g.weight x d = g.weight x d + _ + g'.weight x d
  omega

/-- A module that owes its end to another one is waited for. -/
theorem weight_pos_of_waits (h : 0 < g.waits x) : ∃ d, g.owes d ∧ x ∈ (g.fields d).parents := by
  obtain ⟨i, -, hi⟩ := Finset.exists_ne_zero_of_sum_ne_zero (by rw [waits] at h; omega :
    ∑ i ∈ Finset.range g.size, g.weight x ⟨i⟩ ≠ 0)
  rw [weight] at hi
  split at hi
  · rename_i ho
    exact ⟨⟨i⟩, ho, List.count_pos_iff.1 (Nat.pos_of_ne_zero hi)⟩
  · exact absurd rfl hi

theorem waits_pos (hs : d.index < g.size) (ho : g.owes d) (hx : x ∈ (g.fields d).parents) :
    0 < g.waits x := by
  have hle := Finset.single_le_sum (f := fun i => g.weight x ⟨i⟩) (fun i _ => Nat.zero_le _)
    (Finset.mem_range.2 hs)
  have hpos : 0 < g.weight x d := by
    rw [weight, if_pos ho]
    exact List.count_pos_iff.2 hx
  exact Nat.lt_of_lt_of_le hpos hle

/-! ## Cycles that are done or have failed -/

theorem Shaped.not_idle_of_root (h : g.Shaped x) (hr : (g.fields x).root ≠ none) :
    ¬(g.fields x).status.IsIdle := fun hi => hr (h.idle hi).1.2.1

theorem Shaped.evaluated_of_failed (h : g.Shaped x) (hf : g.Failed x) :
    (g.fields x).status = .evaluated := by
  have hi : ¬(g.fields x).status.IsIdle := fun hi => hf (h.idle hi).1.1
  rcases Status.cases_awake hi with hs | hs | hs
  · exact (hf (h.opened hs).1).elim
  · exact (hf (h.waiting hs).1).elim
  · exact hs

/-- A module whose asynchronous work is done has succeeded unless it has failed. -/
theorem Shaped.complete_of_done (h : g.Shaped x) (ho : (g.fields x).order = .done)
    (he : (g.fields x).error = none) : g.Complete x := by
  refine ⟨?_, he⟩
  have hi : ¬(g.fields x).status.IsIdle := fun hi => by
    have := (h.idle hi).1.2.2.1
    rw [ho] at this
    cases this
  rcases Status.cases_awake hi with hs | hs | hs
  · exact ((h.opened hs).2.2 ho).elim
  · have := (h.waiting hs).2.2
    rw [ho] at this
    cases this
  · exact hs

/-- A module of a closed cycle that never had a turn is complete. -/
theorem Shaped.complete_of_unset (h : g.Shaped x) (hr : (g.fields x).root ≠ none)
    (ho : (g.fields x).order = .unset) : g.Complete x := by
  have he : (g.fields x).error = none := by
    by_contra he
    have := h.failed he hr
    rw [ho] at this
    cases this
  refine ⟨?_, he⟩
  rcases Status.cases_awake (h.not_idle_of_root hr) with hs | hs | hs
  · exact (hr (h.opened hs).2.1).elim
  · have := (h.waiting hs).2.2
    rw [ho] at this
    cases this
  · exact hs

namespace Sound

/-- If the root of a cycle is complete then so is every module of the cycle: each one waited,
through earlier ones, for all that hangs on it. -/
theorem complete_member (h : g.Sound) (hq : g.Complete q) :
    ∀ k x, g.visitOf x = k → (g.fields x).root = some q → g.Complete x := by
  intro k
  induction k using Nat.strong_induction_on with
  | _ k ih =>
    intro x hk hx
    by_cases e : x = q
    · rwa [e]
    · obtain ⟨y, hy, hlt, hparent⟩ := (h.member x q hx).hung e
      obtain ⟨hys, hye⟩ := ih (g.visitOf y) (by omega) y rfl hy
      by_cases ho : (g.fields x).order = .unset
      · exact (h.shaped x).complete_of_unset (by rw [hx]; simp) ho
      · have hstarts := ((h.shaped y).complete hys hye).2.2.1
        exact (h.awaits x y (hparent ho)).started (by omega)

/-- If a module of a closed cycle has failed then so has the root. -/
theorem failed_root (h : g.Sound) (hdoom : g.doom = []) :
    ∀ k x, g.visitOf x = k → (g.fields x).root = some q → g.Failed x → g.Failed q := by
  intro k
  induction k using Nat.strong_induction_on with
  | _ k ih =>
    intro x hk hx hf
    by_cases e : x = q
    · rwa [← e]
    · obtain ⟨y, hy, hlt, hparent⟩ := (h.member x q hx).hung e
      have ho : (g.fields x).order = .done := (h.shaped x).failed hf (by rw [hx]; simp)
      have hy' := (h.awaits x y (hparent (by rw [ho]; exact fun e => nomatch e))).failed hf
      rw [hdoom] at hy'
      exact ih (g.visitOf y) (by omega) y rfl hy (hy'.resolve_right List.not_mem_nil)

/-- What a module waits for is complete once it waits for nothing more. -/
theorem awaited_complete (h : g.Sound) (hx : g.Balanced x) (hx0 : (g.fields x).pending = some 0)
    (he : (g.fields x).error = none) (hdoom : x ∉ g.doom) (hd : x ∈ (g.fields d).parents)
    (hreleased : d ∉ g.released) : g.Complete d := by
  obtain ⟨k, hk, hle, -⟩ := hx
  have hk0 : k = 0 := by
    rw [hx0] at hk
    cases hk
    rfl
  have hed : (g.fields d).error = none := by
    by_contra hf
    exact (h.awaits d x hd).failed hf |>.elim (fun hf => hf he) hdoom
  have hidle : ¬(g.fields d).status.IsIdle := fun hi => by
    rw [((h.shaped d).idle hi).1.2.2.2] at hd
    cases hd
  have howes : ¬g.owes d := fun ho => by
    have := waits_pos ((h.shaped d).sized hidle) ho hd
    omega
  cases ho : (g.fields d).order with
  | unset =>
    rw [(h.shaped d).unset ho] at hd
    cases hd
  | turn k =>
    exact absurd (by simp [owes, ho, hed, AsyncOrder.isTurn, hreleased]) howes
  | done => exact (h.shaped d).complete_of_done ho hed

end Sound

/-- A leaf that was evaluated without an error, or a module of a cycle that is complete. -/
def Done (g : Graph) (n : ModuleId) : Prop :=
  g.leaf n ∨ ∃ q, (g.fields n).root = some q ∧ g.Complete q

/-- Whatever a module of a complete cycle requests is done. -/
theorem Sound.done_of_request (h : g.Sound) (hq : g.Complete q)
    (hx : (g.fields x).root = some q) (hr : r ∈ (g.fields x).requested) :
    ∃ n, Entry.resolved x r n ∈ g.journal ∧ g.Done n := by
  obtain ⟨hxs, hxe⟩ := h.complete_member hq _ x rfl hx
  have hstarts := ((h.shaped x).complete hxs hxe).2.2.1
  obtain ⟨n, hn, hleaf | hin | ⟨p, hp, hc | hw⟩⟩ := h.settled x q hx r hr
  · exact ⟨n, hn, .inl hleaf⟩
  · exact ⟨n, hn, .inr ⟨q, hin, hq⟩⟩
  · exact ⟨n, hn, .inr ⟨p, hp, hc⟩⟩
  · exact ⟨n, hn, .inr ⟨p, hp, (h.awaits p x hw).started (by omega)⟩⟩

/-- What a module requests is done, apart from modules that reach it. -/
def Provided (g : Graph) (m : ModuleId) : Prop :=
  ∀ r ∈ (g.fields m).requested, ∃ n, Entry.resolved m r n ∈ g.journal ∧
    (g.Done n ∨ ReflTransGen g.Requests n m)

/-- A module of a closed cycle can run when all that it waits for is complete. -/
theorem Sound.provided (h : g.Sound) (hx : (g.fields x).root = some q)
    (hc : ∀ d, x ∈ (g.fields d).parents → g.Complete d) : g.Provided x := by
  intro r hr
  obtain ⟨n, hn, hleaf | hin | ⟨p, hp, hp' | hw⟩⟩ := h.settled x q hx r hr
  · exact ⟨n, hn, .inl (.inl hleaf)⟩
  · exact ⟨n, hn, .inr ((h.member n q hin).up.trans (h.member x q hx).down)⟩
  · exact ⟨n, hn, .inl (.inr ⟨p, hp, hp'⟩)⟩
  · exact ⟨n, hn, .inl (.inr ⟨p, hp, hc p hw⟩)⟩

end Graph

end ModuleGraph

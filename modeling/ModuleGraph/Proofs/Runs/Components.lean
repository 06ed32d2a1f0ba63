import ModuleGraph.Proofs.Runs.Progress

/-! # Cycle roots are the strongly connected components

Whatever a module of a closed cycle requests was answered, by a leaf or by a module of a closed
cycle. So a path from a closed cycle stays among closed cycles until it ends, and two modules of
closed cycles that reach each other have the same root. -/

namespace ModuleGraph

open Relation

variable {σ κ : Type} {journal : σ → Journal} {owner : κ → ModuleId} {reserved : Set PromiseId}
variable {hosts : Set (Host σ κ)}

namespace Machine

variable {s : Machine σ κ} {m n x y q : ModuleId} {resolver : ModuleId → String → Option ModuleId}
variable {known : Finding → Prop} {spare : PromiseId → Prop}

def Resolves (s : Machine σ κ) (resolver : ModuleId → String → Option ModuleId) (m n : ModuleId) :
    Prop :=
  ∃ r ∈ s.requested m, resolver m r = some n

def Connected (s : Machine σ κ) (resolver : ModuleId → String → Option ModuleId)
    (x y : ModuleId) : Prop :=
  ReflTransGen (s.Resolves resolver) x y ∧ ReflTransGen (s.Resolves resolver) y x

theorem Connected.symm (h : s.Connected resolver x y) : s.Connected resolver y x := ⟨h.2, h.1⟩

theorem Connected.trans (h : s.Connected resolver x y) (h' : s.Connected resolver y q) :
    s.Connected resolver x q := ⟨h.1.trans h'.1, h'.2.trans h.2⟩

theorem cycleRoot?_eq (s : Machine σ κ) (m : ModuleId) : s.cycleRoot? m = (s.cyclic m).root := by
  rw [cycleRoot?, cyclic]
  cases s.cyclic? m <;> rfl

/-! ## Fixed resolvers -/

section Fixed

variable (hfixed : ∀ m r n, Entry.resolved m r n ∈ journal s.host → resolver m r = some n)
include hfixed

theorem stable_of_fixed : (journal s.host).Stable := fun m r n n' hn hn' =>
  Option.some.inj ((hfixed m r n hn).symm.trans (hfixed m r n' hn'))

theorem resolves_of_requests (h : ReflTransGen (s.Requests (journal s.host)) x y) :
    ReflTransGen (s.Resolves resolver) x y :=
  ReflTransGen.mono (fun m _ ⟨r, hr, hn⟩ => ⟨r, hr, hfixed m r _ hn⟩) x y h

/-- What a module of a closed cycle requests is an evaluated leaf or has a root. -/
theorem Resting.root_of_resolves (h : s.Resting journal owner reserved known spare)
    (hx : (s.cyclic x).root ≠ none) (hy : s.Resolves resolver x y) :
    s.Requests (journal s.host) x y ∧ (s.LeafDone y ∨ (s.cyclic y).root ≠ none) := by
  obtain ⟨r, hr, hy⟩ := hy
  obtain ⟨p, hp⟩ := Option.ne_none_iff_exists'.1 hx
  rw [requested_eq] at hr
  obtain ⟨n, hn, hclosed⟩ := h.sound.settled x p hp r hr
  obtain rfl : n = y := Option.some.inj ((hfixed x r n hn).symm.trans hy)
  refine ⟨⟨r, by rwa [requested_eq], hn⟩, hclosed.imp id ?_⟩
  rintro (hroot | ⟨q, hroot, -⟩) e <;> exact nomatch hroot.symm.trans e

/-- A path from a closed cycle stays among closed cycles until it ends, perhaps at a leaf. -/
theorem Resting.leads_of_resolves (h : s.Resting journal owner reserved known spare)
    (hx : (s.cyclic x).root ≠ none) (hy : ReflTransGen (s.Resolves resolver) x y) :
    s.LeafDone y ∨ (s.cyclic y).root ≠ none ∧
      ReflTransGen (s.graph journal .rest).Leads x y := by
  induction hy with
  | refl => exact .inr ⟨hx, .refl⟩
  | @tail y z _ hz ih =>
    obtain hleaf | ⟨hy, hpath⟩ := ih
    · obtain ⟨r, hr, -⟩ := hz
      rw [requested_of_leaf (not_isCyclic_of_leafDone hleaf)] at hr
      cases hr
    · obtain ⟨hrequests, hclosed⟩ := h.root_of_resolves hfixed hy hz
      by_cases hleaf : s.LeafDone z
      · exact .inl hleaf
      · rw [← requests_graph s .rest] at hrequests
        exact .inr ⟨hclosed.resolve_left hleaf, hpath.tail ⟨hrequests, hleaf⟩⟩

/-- What a module of a closed cycle is connected with has a root too: a leaf requests nothing. -/
theorem Resting.leads_of_connected (h : s.Resting journal owner reserved known spare)
    (hx : (s.cyclic x).root ≠ none) (hxy : s.Connected resolver x y) :
    (s.cyclic y).root ≠ none ∧ ReflTransGen (s.graph journal .rest).Leads x y := by
  refine (h.leads_of_resolves hfixed hx hxy.1).resolve_left fun hleaf => ?_
  have hc := not_isCyclic_of_leafDone hleaf
  obtain rfl | ⟨z, ⟨r, hr, -⟩, -⟩ := ReflTransGen.cases_head hxy.2
  · rw [cyclic_of_not_isCyclic hc] at hx
    exact hx rfl
  · rw [requested_of_leaf hc] at hr
    cases hr

theorem Resting.connected_of_root (h : s.Resting journal owner reserved known spare)
    (hx : (s.cyclic x).root = some q) : s.Connected resolver x q := by
  have hm := h.sound.member x q hx
  have hup := hm.up
  have hdown := hm.down
  rw [requests_graph] at hup hdown
  exact ⟨resolves_of_requests hfixed hup, resolves_of_requests hfixed hdown⟩

/-- What is connected with a module of a closed cycle has the same root. -/
theorem Resting.root_of_connected (h : s.Resting journal owner reserved known spare)
    (hx : (s.cyclic x).root = some q) (hxy : s.Connected resolver x y) :
    (s.cyclic y).root = some q := by
  have hx' : (s.cyclic x).root ≠ none := by rw [hx]; exact Option.some_ne_none q
  obtain ⟨hy, hleads⟩ := h.leads_of_connected hfixed hx' hxy
  obtain ⟨p, hp⟩ := Option.ne_none_iff_exists'.1 hy
  rw [hp, h.sound.separate (stable_of_fixed hfixed) x y q p hx hp hleads
    (h.leads_of_connected hfixed hy hxy.symm).2]

end Fixed

/-- **Cycle roots are the strongly connected components.** Two modules that have roots have the same
one just if they reach each other through requests. A root is its own root and belongs to the
component that it stands for. If one module of a component has a root then so has every other one,
and it is the same. -/
theorem cycle_roots_are_components (hc : Conduct journal owner reserved hosts)
    (h : Reachable journal reserved hosts s)
    (hfixed : ∀ m r n, Entry.resolved m r n ∈ journal s.host → resolver m r = some n) :
    (∀ x y p q, s.cycleRoot? x = some p → s.cycleRoot? y = some q →
      (p = q ↔ s.Connected resolver x y)) ∧
    (∀ x q, s.cycleRoot? x = some q → s.cycleRoot? q = some q ∧ s.Connected resolver x q) ∧
    ∀ x y q, s.cycleRoot? x = some q → s.Connected resolver x y → s.cycleRoot? y = some q := by
  have hrest := h.resting hc
  simp only [cycleRoot?_eq]
  refine ⟨fun x y p q hx hy => ⟨?_, fun hxy => ?_⟩, fun x q hx => ?_, fun x y q hx hxy => ?_⟩
  · rintro rfl
    exact (hrest.connected_of_root hfixed hx).trans (hrest.connected_of_root hfixed hy).symm
  · exact Option.some.inj ((hrest.root_of_connected hfixed hx hxy).symm.trans hy)
  · exact ⟨(hrest.sound.member x q hx).root, hrest.connected_of_root hfixed hx⟩
  · exact hrest.root_of_connected hfixed hx hxy

end Machine

/-! ## A ring -/

/-- Modules `0` and `1` request each other, and before that modules `2` and `3`. -/
def ring (body : ModuleId → BodyPlan) : Plan where
  target _ request :=
    if request = "0" then some ⟨0⟩ else if request = "1" then some ⟨1⟩
    else if request = "2" then some ⟨2⟩ else if request = "3" then some ⟨3⟩ else none
  body := body

namespace Ring

def made : Machine Journal ModuleId :=
  { Machine.initial [] with
    modules := #[.new (.foreign false (.new ["2", "1"] false)) none,
      .new (.foreign false (.new ["3", "0"] false)) none,
      .new (.foreign false (.new [] false)) none, .new (.foreign false (.new [] false)) none] }

variable (body : ModuleId → BodyPlan)

def host : Host Journal ModuleId := (ring body).rehearsal 5

def link (s : Machine Journal ModuleId) : Machine Journal ModuleId :=
  ((host body).link ⟨0⟩ s).elim s (·.2)

def linked : Machine Journal ModuleId := link body made

def evaluated (m : ModuleId) (s : Machine Journal ModuleId) : Machine Journal ModuleId :=
  ((host body).evaluate m s).elim s (·.2)

variable {body}

theorem reachable_made (reserved : Set PromiseId) :
    Machine.Reachable id reserved {host body} made := by
  refine (ring body).reachable_modules 5 reserved fun x hx => ?_
  simp only [List.mem_toArray, List.mem_cons, List.not_mem_nil, or_false] at hx
  obtain rfl | rfl | rfl | rfl := hx <;> exact ⟨rfl, rfl⟩

theorem move_link {reserved : Set PromiseId} {s : Machine Journal ModuleId} (hm : s.Has ⟨0⟩)
    (h : ((host body).link ⟨0⟩ s).isSome) :
    Machine.Move id reserved {host body} s (link body s) := by
  obtain ⟨⟨r, s'⟩, hs⟩ := Option.isSome_iff_exists.1 h
  rw [link, hs]
  exact .link rfl hm hs

theorem reachable_linked (body : ModuleId → BodyPlan) (reserved : Set PromiseId)
    (h : ((host body).link ⟨0⟩ made).isSome) :
    Machine.Reachable id reserved {host body} (linked body) :=
  (reachable_made reserved).move (move_link (by decide : 0 < 4) h)

/-- The machine after an evaluation that returns a promise. -/
theorem evaluate_eq {s : Machine Journal ModuleId} {m : ModuleId} {p : PromiseId}
    (h : ((host body).evaluate m s).map (·.1) = some p) :
    (host body).evaluate m s = some (p, evaluated body m s) := by
  obtain ⟨⟨q, s'⟩, hs, rfl⟩ := Option.map_eq_some_iff.1 h
  rw [evaluated, hs]
  rfl

theorem reachable_evaluated {reserved : Set PromiseId} {s : Machine Journal ModuleId} {m : ModuleId}
    {p : PromiseId} (hs : Machine.Reachable id reserved {host body} s) (hm : s.Has m)
    (h : ((host body).evaluate m s).map (·.1) = some p) :
    Machine.Reachable id reserved {host body} (evaluated body m s) :=
  hs.move (.evaluate rfl hm (evaluate_eq h))

theorem fixed_of_all (body : ModuleId → BodyPlan) {j : Journal} (h : j.all fun
    | .resolved m r n => (ring body).target m r = some n
    | _ => true) (m : ModuleId) (r : String) (n : ModuleId) (hn : Entry.resolved m r n ∈ j) :
    (ring body).target m r = some n := of_decide_eq_true (List.all_eq_true.1 h _ hn)

end Ring

/-- The two modules that request each other have the same root, and the others have their own. -/
theorem cycle_roots_are_components_ring :
    let plan := fun _ => BodyPlan.completes
    let s := Ring.evaluated plan ⟨0⟩ (Ring.linked plan)
    s.cycleRoot? ⟨0⟩ = some ⟨0⟩ ∧ s.cycleRoot? ⟨1⟩ = some ⟨0⟩ ∧ s.cycleRoot? ⟨3⟩ = some ⟨3⟩ ∧
      s.Connected (ring plan).target ⟨0⟩ ⟨1⟩ ∧ ¬s.Connected (ring plan).target ⟨1⟩ ⟨3⟩ := by
  intro plan s
  have hs : Machine.Reachable id Set.univ {Ring.host plan} s :=
    Ring.reachable_evaluated (p := ⟨0⟩) (Ring.reachable_linked plan Set.univ (by decide))
      (by decide : 0 < 4) (by decide)
  obtain ⟨hsame, -, -⟩ := Machine.cycle_roots_are_components ((ring plan).conduct 5 Set.univ) hs
    (Ring.fixed_of_all plan (by decide))
  have h₀ : s.cycleRoot? ⟨0⟩ = some ⟨0⟩ := by decide
  have h₁ : s.cycleRoot? ⟨1⟩ = some ⟨0⟩ := by decide
  have h₃ : s.cycleRoot? ⟨3⟩ = some ⟨3⟩ := by decide
  exact ⟨h₀, h₁, h₃, (hsame _ _ _ _ h₀ h₁).1 rfl,
    fun h => absurd ((hsame _ _ _ _ h₁ h₃).2 h) (by decide)⟩

end ModuleGraph

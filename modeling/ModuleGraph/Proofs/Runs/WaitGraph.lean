import ModuleGraph.Proofs.Runs.Components
import ModuleGraph.Proofs.Runs.ReadySet

/-! # The graph of waits

A module that waits is noted as a parent of whatever it waits for, once for each request. Between
the steps of a run it counts exactly the notes of it at modules that have a turn, unless its cycle
has failed. Nobody gets a turn before those that it waits for, so all notes lead from earlier turns
to later ones. -/

namespace ModuleGraph

variable {σ κ : Type} {journal : σ → Journal} {owner : κ → ModuleId} {reserved : Set PromiseId}
variable {hosts : Set (Host σ κ)}

namespace Machine

variable {s : Machine σ κ} {m x d : ModuleId} {o : Focus}

def turnEdges (s : Machine σ κ) (m : ModuleId) : Nat :=
  ∑ i ∈ Finset.range s.modules.size,
    if (s.cyclic ⟨i⟩).order.isTurn then (s.cyclic ⟨i⟩).parents.count m else 0

/-- The modules that wait are in order with what they wait for. -/
structure WaitsInOrder (s : Machine σ κ) : Prop where
  /-- A module that waits counts what it waits for, unless the root of its cycle has failed. -/
  counted : ∀ m, s.status m = .evaluatingAsync → ¬s.rootFailed m →
    (s.cyclic m).pending = some (s.turnEdges m)
  /-- Whoever waits has a later turn than what it waits for. -/
  ascending : ∀ d, ∀ m ∈ (s.cyclic d).parents, ∀ j k, (s.cyclic d).order = .turn j →
    (s.cyclic m).order = .turn k → j < k
  distinct : ∀ x y k, (s.cyclic x).order = .turn k → (s.cyclic y).order = .turn k → x = y
  /-- Whoever answers for the evaluation of a closed cycle is its root. -/
  answering : ∀ m c, (s.cyclic m).capability = some c →
    s.cycleRoot? m = none ∨ s.cycleRoot? m = some m

/-! ## What is counted -/

namespace Working

variable (h : s.Working journal owner reserved o [] [] [] [])
include h

/-- What a module waits for has not failed if the module has not. -/
theorem error_of_parent (hx : (s.cyclic x).error = none) (hd : x ∈ (s.cyclic d).parents) :
    (s.cyclic d).error = none := by
  by_contra hf
  exact ((h.sound.awaits d x hd).failed hf).elim (fun hf' => hf' hx) List.not_mem_nil

/-- A module with a turn still owes its end to each of its parents that has not failed. -/
theorem weight_eq (hx : (s.cyclic x).error = none) (d : ModuleId) :
    (s.graph journal (.run [] [] [] [])).weight x d =
      if (s.cyclic d).order.isTurn then (s.cyclic d).parents.count x else 0 := by
  by_cases hd : x ∈ (s.cyclic d).parents
  · -- A module that failed in a visit keeps its turn, but whoever waits for it has failed with it.
    have howes : (s.graph journal (.run [] [] [] [])).owes d = (s.cyclic d).order.isTurn := by
      change ((s.cyclic d).order.isTurn && (s.cyclic d).error.isNone && true) = _
      rw [h.error_of_parent hx hd, Option.isNone_none, Bool.and_true, Bool.and_true]
    rw [Graph.weight, howes]
    rfl
  · change (if _ then (s.cyclic d).parents.count x else 0) = _
    rw [List.count_eq_zero.2 hd, ite_self, ite_self]

theorem waits_eq (hx : (s.cyclic x).error = none) :
    (s.graph journal (.run [] [] [] [])).waits x = s.turnEdges x :=
  Finset.sum_congr rfl fun i _ => h.weight_eq hx ⟨i⟩

theorem waitsInOrder : s.WaitsInOrder where
  counted m hm hroot := by
    have hm' : (s.cyclic m).status = .evaluatingAsync :=
      (status_of_isCyclic (isCyclic_of_status (.inr hm))).symm.trans hm
    rw [h.pending_eq hm' hroot, h.waits_eq (h.error_eq_none hroot), List.count_nil, Nat.add_zero]
  ascending d m hm := (h.sound.awaits d m hm).turn
  distinct := h.sound.distinct
  answering m c hc := by
    rw [cycleRoot?_eq]
    exact h.coherent.own m c hc

end Working

/-- **The graph of waits is well formed.** In each state between the jobs and calls of a run, a
module that waits counts the notes of it at modules that have a turn, unless the root of its cycle
has failed. A module with a turn is waited for only by modules with later turns, no two modules have
the same turn, and a module with a promise for its evaluation is the root of its cycle, if that was
closed. -/
theorem wait_graph_is_well_formed (hc : Conduct journal owner reserved hosts)
    (h : Reachable journal reserved hosts s) : s.WaitsInOrder := by
  have hrest := h.resting hc
  exact (Resting.working hrest.sound hrest.coherent ⟨rfl, rfl, id⟩ rfl).waitsInOrder

/-- Module `1` waits for module `3`, which it requests twice. -/
theorem wait_graph_is_well_formed_diamond :
    Diamond.waiting.WaitsInOrder ∧ Diamond.waiting.status ⟨1⟩ = .evaluatingAsync ∧
      Diamond.waiting.turnEdges ⟨1⟩ = 2 ∧ (Diamond.waiting.cyclic ⟨1⟩).pending = some 2 := by
  have h := wait_graph_is_well_formed (diamond.conduct 9 Set.univ)
    (Diamond.reachable_waiting Set.univ)
  have hstatus : Diamond.waiting.status ⟨1⟩ = .evaluatingAsync := rfl
  have hedges : Diamond.waiting.turnEdges ⟨1⟩ = 2 := by decide
  have hpending := h.counted ⟨1⟩ hstatus (by decide)
  rw [hedges] at hpending
  exact ⟨h, hstatus, hedges, hpending⟩

end Machine

end ModuleGraph

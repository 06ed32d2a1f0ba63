import Mathlib.Data.List.Basic
import Mathlib.Tactic.Common

/-! # Lists without repetitions

Names that occur in a text are listed once each, in the order in which they occur first. -/

namespace ModuleGraph.Syntax

/-- The names are those that occur, each listed once and in the order of first occurrence. -/
structure Enumerates (names occurrences : List String) : Prop where
  complete : ∀ n, n ∈ names ↔ n ∈ occurrences
  once : names.Nodup
  ordered : names.Pairwise fun a b => occurrences.idxOf a < occurrences.idxOf b

variable {n a b : String} {names occurrences : List String}

/-- To drop names does not bring one forward before another that is kept. -/
theorem idxOf_lt_of_filter {p : String → Bool} {xs : List String} (hb : p b = true)
    (h : (xs.filter p).idxOf a < (xs.filter p).idxOf b) :
    xs.idxOf a < xs.idxOf b := by
  induction xs with
  | nil => simp at h
  | cons x rest ih =>
    by_cases hxa : x = a
    · have hxb : x ≠ b := by
        rintro rfl
        simp [hxa] at h
      simp [hxa, List.idxOf_cons_ne _ (hxa ▸ hxb)]
    · by_cases hp : p x = true
      · by_cases hxb : x = b
        · rw [List.filter_cons_of_pos hp] at h
          simp [hxb] at h
        · rw [List.filter_cons_of_pos hp, List.idxOf_cons_ne _ hxa, List.idxOf_cons_ne _ hxb] at h
          rw [List.idxOf_cons_ne _ hxa, List.idxOf_cons_ne _ hxb]
          exact Nat.succ_lt_succ (ih (Nat.lt_of_succ_lt_succ h))
      · have hxb : x ≠ b := fun hx => hp (hx ▸ hb)
        rw [List.filter_cons_of_neg hp] at h
        rw [List.idxOf_cons_ne _ hxa, List.idxOf_cons_ne _ hxb]
        exact Nat.succ_lt_succ (ih h)

theorem enumerates_eraseDups (occurrences : List String) :
    Enumerates occurrences.eraseDups occurrences := by
  cases occurrences with
  | nil => exact ⟨by simp, by simp, by simp⟩
  | cons x rest =>
    have others := enumerates_eraseDups (rest.filter fun n => !n == x)
    rw [List.eraseDups_cons]
    refine ⟨?_, ?_, ?_⟩
    · intro n
      rw [List.mem_cons, others.complete]
      by_cases hn : n = x <;> simp [hn]
    · rw [List.nodup_cons, others.complete]
      exact ⟨by simp, others.once⟩
    · rw [List.pairwise_cons]
      have apart : ∀ n ∈ (rest.filter fun n => !n == x).eraseDups, n ≠ x := by
        intro n hn
        rw [others.complete] at hn
        simpa using (List.mem_filter.1 hn).2
      constructor
      · intro n hn
        simp [List.idxOf_cons_ne _ (apart n hn).symm]
      · refine others.ordered.imp_of_mem fun {a b} ha hb h => ?_
        rw [List.idxOf_cons_ne _ (apart a ha).symm, List.idxOf_cons_ne _ (apart b hb).symm]
        apply Nat.succ_lt_succ
        exact idxOf_lt_of_filter (by simpa using apart b hb) h
termination_by occurrences.length
decreasing_by
  have := List.length_filter_le (fun n => !n == x) rest
  simp only [List.length_cons]
  omega

end ModuleGraph.Syntax

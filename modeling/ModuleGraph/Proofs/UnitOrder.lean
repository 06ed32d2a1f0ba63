import Mathlib.Data.List.Lex
import Mathlib.Data.List.Sort
import ModuleGraph.Text.Units

/-! # The order of texts

Two texts with the same 16-bit units are equal, so the order by units is linear. A list of texts
that increases strictly in this order is determined by what it contains. -/

namespace ModuleGraph.Text

variable {a b : String} {names : List String}

/-! ## Units determine the text -/

theorem unitsOf_ne_nil (c : Char) : unitsOf c ≠ [] := by
  simp only [unitsOf]
  split <;> simp

/-- The units of a character are not the first ones of another character. A surrogate is no
character, so a single unit is not the first half of a pair. -/
theorem unitsOf_append_inj {c d : Char} {u v : List Nat} (h : unitsOf c ++ u = unitsOf d ++ v) :
    c = d ∧ u = v := by
  have hc : c.toNat < 0xD800 ∨ 0xDFFF < c.toNat ∧ c.toNat < 0x110000 := c.valid
  have hd : d.toNat < 0xD800 ∨ 0xDFFF < d.toNat ∧ d.toNat < 0x110000 := d.valid
  simp only [unitsOf] at h
  split at h <;> split at h <;>
    simp only [List.cons_append, List.nil_append, List.cons.injEq] at h
  · exact ⟨Char.toNat_inj.1 h.1, h.2⟩
  · omega
  · omega
  · exact ⟨Char.toNat_inj.1 (by omega), h.2.2⟩

theorem flatMap_unitsOf_inj {cs ds : List Char} (h : cs.flatMap unitsOf = ds.flatMap unitsOf) :
    cs = ds := by
  induction cs generalizing ds with
  | nil =>
    cases ds with
    | nil => rfl
    | cons d ds => simp [unitsOf_ne_nil] at h
  | cons c cs ih =>
    cases ds with
    | nil => simp [unitsOf_ne_nil] at h
    | cons d ds =>
      obtain ⟨rfl, htail⟩ := unitsOf_append_inj h
      rw [ih htail]

theorem units_injective : Function.Injective units :=
  fun _ _ h => String.toList_injective (flatMap_unitsOf_inj h)

/-! ## The order is linear -/

theorem compareUnits_eq_lt_iff {a b : List Nat} : compareUnits a b = .lt ↔ a < b := by
  induction a generalizing b with
  | nil => cases b <;> simp [compareUnits]
  | cons m a ih =>
    cases b with
    | nil => simp [compareUnits]
    | cons n b =>
      rw [compareUnits, List.cons_lt_cons_iff, ← ih]
      split_ifs with h h'
      · simp [h]
      · simp [h, Nat.ne_of_gt h']
      · simp [show m = n by omega]

def Precedes (a b : String) : Prop := order a b = .lt

theorem precedes_iff : Precedes a b ↔ units a < units b := compareUnits_eq_lt_iff

instance : Std.Irrefl Precedes := ⟨fun a h => by rw [Precedes, order_self] at h; cases h⟩

instance : IsTrans String Precedes :=
  ⟨fun _ _ _ h h' => precedes_iff.2 ((precedes_iff.1 h).trans (precedes_iff.1 h'))⟩

instance : Std.Antisymm Precedes :=
  ⟨fun _ _ h h' => absurd (precedes_iff.1 h') (precedes_iff.1 h).asymm⟩

theorem le_iff : le a b = true ↔ units a ≤ units b := by
  rw [le, bne_iff_ne, ← not_lt, ← precedes_iff, Precedes, ← order_swap]
  cases order a b <;> simp

theorem Precedes.of_le_of_ne (h : le a b = true) (hne : a ≠ b) : Precedes a b :=
  precedes_iff.2 ((le_iff.1 h).lt_of_ne fun he => hne (units_injective he))

/-! ## Sorted lists -/

theorem pairwise_sort (names : List String) : (sort names).Pairwise fun a b => le a b = true := by
  rw [sort]
  refine List.pairwise_mergeSort (fun a b c h h' => ?_) (fun a b => ?_) names
  · exact le_iff.2 ((le_iff.1 h).trans (le_iff.1 h'))
  · rw [Bool.or_eq_true, le_iff, le_iff]
    exact le_total _ _

theorem pairwise_dropRepeats (h : names.Pairwise fun a b => le a b = true) :
    (dropRepeats names).Pairwise Precedes := by
  fun_induction dropRepeats names with
  | case1 => exact .nil
  | case2 a => exact List.pairwise_singleton _ a
  | case3 a rest ih => exact ih h.of_cons
  | case4 a b rest hne ih =>
    refine List.pairwise_cons.2 ⟨fun c hc => ?_, ih h.of_cons⟩
    have hab : Precedes a b :=
      .of_le_of_ne (List.rel_of_pairwise_cons h (List.mem_cons_self ..)) hne
    rcases List.mem_cons.1 (mem_dropRepeats.1 hc) with rfl | hc
    · exact hab
    · have hbc := le_iff.1 (List.rel_of_pairwise_cons h.of_cons hc)
      exact precedes_iff.2 ((precedes_iff.1 hab).trans_le hbc)

theorem pairwise_sortDistinct (names : List String) : (sortDistinct names).Pairwise Precedes :=
  pairwise_dropRepeats (pairwise_sort names)

end ModuleGraph.Text

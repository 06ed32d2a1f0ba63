import ModuleGraph.Proofs.UnitOrder

/-! # Units and code points

Units order texts as code points do, with one exception. A character above U+FFFF is a pair of
surrogates, and these come before U+E000. So where two texts part, such a character comes before
those from U+E000 to U+FFFF. -/

namespace ModuleGraph.Text

variable {a b : String} {c d : Char}

/-- A character that is written as a pair of surrogates. -/
def IsSupplementary (c : Char) : Prop := 0xFFFF < c.toNat

/-- A character that is written as one unit, which comes after all surrogates. -/
def IsPastSurrogates (c : Char) : Prop := 0xE000 ≤ c.toNat ∧ c.toNat ≤ 0xFFFF

instance : DecidablePred IsSupplementary := fun _ => inferInstanceAs (Decidable (_ < _))

instance : DecidablePred IsPastSurrogates := fun _ => inferInstanceAs (Decidable (_ ∧ _))

def Diverge (c d : Char) : Prop :=
  IsSupplementary c ∧ IsPastSurrogates d ∨ IsPastSurrogates c ∧ IsSupplementary d

/-- The order of code points, but a supplementary character comes before those from U+E000 to
U+FFFF. -/
def compareChars (c d : Char) : Ordering :=
  if IsSupplementary c ∧ IsPastSurrogates d then .lt
  else if IsPastSurrogates c ∧ IsSupplementary d then .gt
  else compare c.toNat d.toNat

/-- Where the two texts differ for the first time, `a` has `c` and `b` has `d`. -/
def PartAt (a b : String) (c d : Char) : Prop :=
  c ≠ d ∧ ∃ p u v, a.toList = p ++ c :: u ∧ b.toList = p ++ d :: v

/-! ## Characters -/

theorem IsPastSurrogates.not_supplementary (h : IsPastSurrogates c) : ¬IsSupplementary c :=
  Nat.not_lt.2 h.2

theorem compareChars_swap (c d : Char) : (compareChars c d).swap = compareChars d c := by
  by_cases hcd : IsSupplementary c ∧ IsPastSurrogates d
  · rw [compareChars, if_pos hcd, compareChars, if_neg fun h => h.2.not_supplementary hcd.1,
      if_pos hcd.symm]
    rfl
  · by_cases hdc : IsPastSurrogates c ∧ IsSupplementary d
    · rw [compareChars, if_neg hcd, if_pos hdc, compareChars, if_pos hdc.symm]
      rfl
    · rw [compareChars, if_neg hcd, if_neg hdc, compareChars, if_neg (mt And.symm hdc),
        if_neg (mt And.symm hcd), Nat.compare_swap]

theorem compareChars_of_iff (h : IsSupplementary c ↔ IsSupplementary d) :
    compareChars c d = compare c.toNat d.toNat := by
  rw [compareChars, if_neg fun h' => h'.2.not_supplementary (h.1 h'.1),
    if_neg fun h' => h'.1.not_supplementary (h.2 h'.2)]

theorem unitsOf_supplementary (h : IsSupplementary c) : unitsOf c =
    [0xD800 + (c.toNat - 0x10000) / 0x400, 0xDC00 + (c.toNat - 0x10000) % 0x400] :=
  if_neg (Nat.not_lt.2 h)

theorem unitsOf_single (h : ¬IsSupplementary c) : unitsOf c = [c.toNat] :=
  if_pos (Nat.lt_succ_of_le (Nat.not_lt.1 h))

theorem compare_congr {m n m' n' : Nat} (hne : m ≠ n) (hlt : m < n → m' < n')
    (hgt : n < m → n' < m') : compare m' n' = compare m n := by
  rcases Nat.lt_or_gt_of_ne hne with h | h
  · rw [Nat.compare_eq_lt.2 h, Nat.compare_eq_lt.2 (hlt h)]
  · rw [Nat.compare_eq_gt.2 h, Nat.compare_eq_gt.2 (hgt h)]

theorem compareUnits_cons {m n : Nat} (h : m ≠ n) (u v : List Nat) :
    compareUnits (m :: u) (n :: v) = compare m n := by
  rcases Nat.lt_or_gt_of_ne h with h | h
  · simp [compareUnits, h, Nat.compare_eq_lt.2 h]
  · simp [compareUnits, h, Nat.lt_asymm h, Nat.compare_eq_gt.2 h]

theorem compareUnits_cons_self (n : Nat) (u v : List Nat) :
    compareUnits (n :: u) (n :: v) = compareUnits u v := by
  simp [compareUnits]

/-- A single unit is compared with the first half of a pair. It is no surrogate, so it comes after
this half just when it comes after all of them. -/
theorem compareUnits_single_pair (hc : ¬IsSupplementary c) (hd : IsSupplementary d)
    (u v : List Nat) :
    compareUnits (unitsOf c ++ u) (unitsOf d ++ v) = compareChars c d := by
  have hcv : c.toNat < 0xD800 ∨ 0xDFFF < c.toNat ∧ c.toNat < 0x110000 := c.valid
  have hdv : d.toNat < 0xD800 ∨ 0xDFFF < d.toNat ∧ d.toNat < 0x110000 := d.valid
  have hc' : c.toNat ≤ 0xFFFF := Nat.not_lt.1 hc
  have hd' : 0xFFFF < d.toNat := hd
  rw [unitsOf_single hc, unitsOf_supplementary hd, List.cons_append, List.cons_append,
    compareUnits_cons (by omega), compareChars, if_neg fun h => hc h.1]
  by_cases hpast : IsPastSurrogates c
  · have hc₀ : 0xE000 ≤ c.toNat := hpast.1
    rw [if_pos ⟨hpast, hd⟩, Nat.compare_eq_gt.2 (by omega)]
  · have hc₀ : c.toNat < 0xE000 := Nat.not_le.1 fun h => hpast ⟨h, hc'⟩
    rw [if_neg fun h => hpast h.1, Nat.compare_eq_lt.2 (by omega), Nat.compare_eq_lt.2 (by omega)]

/-- Two pairs are compared by their first halves, and by the second ones where these agree. -/
theorem compareUnits_pair_pair (hc : IsSupplementary c) (hd : IsSupplementary d) (h : c ≠ d)
    (u v : List Nat) :
    compareUnits (unitsOf c ++ u) (unitsOf d ++ v) = compareChars c d := by
  have hc' : 0xFFFF < c.toNat := hc
  have hd' : 0xFFFF < d.toNat := hd
  have hne : c.toNat ≠ d.toNat := mt Char.toNat_inj.1 h
  rw [unitsOf_supplementary hc, unitsOf_supplementary hd, compareChars_of_iff (iff_of_true hc hd)]
  simp only [List.cons_append, List.nil_append]
  by_cases hfirst : (c.toNat - 0x10000) / 0x400 = (d.toNat - 0x10000) / 0x400
  · rw [hfirst, compareUnits_cons_self, compareUnits_cons (by omega)]
    exact compare_congr hne (by omega) (by omega)
  · rw [compareUnits_cons (by omega)]
    exact compare_congr hne (by omega) (by omega)

/-- Two characters are told apart by their own units, whatever follows them. -/
theorem compareUnits_unitsOf (h : c ≠ d) (u v : List Nat) :
    compareUnits (unitsOf c ++ u) (unitsOf d ++ v) = compareChars c d := by
  by_cases hc : IsSupplementary c <;> by_cases hd : IsSupplementary d
  · exact compareUnits_pair_pair hc hd h u v
  · rw [← compareUnits_swap, compareUnits_single_pair hd hc, compareChars_swap]
  · exact compareUnits_single_pair hc hd u v
  · rw [unitsOf_single hc, unitsOf_single hd, List.cons_append, List.cons_append,
      compareUnits_cons (mt Char.toNat_inj.1 h), compareChars_of_iff (iff_of_false hc hd)]

/-! ## Texts -/

theorem compareUnits_append (p u v : List Nat) :
    compareUnits (p ++ u) (p ++ v) = compareUnits u v := by
  induction p with
  | nil => rfl
  | cons n p ih => rw [List.cons_append, List.cons_append, compareUnits_cons_self, ih]

theorem compareUnits_append_right {v : List Nat} (h : v ≠ []) (u : List Nat) :
    compareUnits u (u ++ v) = .lt := by
  induction u with
  | nil =>
    cases v with
    | nil => exact absurd rfl h
    | cons n v => rfl
  | cons n u ih => rw [List.cons_append, compareUnits_cons_self, ih]

/-- The first characters that differ decide. -/
theorem PartAt.order_eq (h : PartAt a b c d) : order a b = compareChars c d := by
  obtain ⟨hne, p, u, v, ha, hb⟩ := h
  rw [order, units, units, ha, hb, List.flatMap_append, List.flatMap_append, compareUnits_append,
    List.flatMap_cons, List.flatMap_cons, compareUnits_unitsOf hne]

theorem precedes_of_initial (h : a.toList <+: b.toList) (hne : a ≠ b) : Precedes a b := by
  obtain ⟨t, ht⟩ := h
  have ht' : t.flatMap unitsOf ≠ [] := by
    intro hnil
    cases t with
    | nil => exact hne (String.toList_injective (by rw [← ht, List.append_nil]))
    | cons c t => exact unitsOf_ne_nil c (List.append_eq_nil_iff.1 hnil).1
  rw [Precedes, order, units, units, ← ht, List.flatMap_append, compareUnits_append_right ht']

theorem exists_first_difference {xs ys : List Char} (h : ¬xs <+: ys) (h' : ¬ys <+: xs) :
    ∃ c d, c ≠ d ∧ ∃ p u v, xs = p ++ c :: u ∧ ys = p ++ d :: v := by
  induction xs generalizing ys with
  | nil => exact absurd List.nil_prefix h
  | cons x xs ih =>
    cases ys with
    | nil => exact absurd List.nil_prefix h'
    | cons y ys =>
      by_cases hxy : x = y
      · subst hxy
        rw [List.prefix_cons_inj] at h h'
        obtain ⟨c, d, hne, p, u, v, rfl, rfl⟩ := ih h h'
        exact ⟨c, d, hne, x :: p, u, v, rfl, rfl⟩
      · exact ⟨x, y, hxy, [], xs, ys, rfl, rfl⟩

/-- Texts part somewhere unless one is the beginning of the other one. -/
theorem exists_partAt (h : ¬a.toList <+: b.toList) (h' : ¬b.toList <+: a.toList) :
    ∃ c d, PartAt a b c d := exists_first_difference h h'

/-! ## The order of code points

Code points, too, put a proper initial part first, and decide by the first characters that
differ. -/

theorem append_lt_append_iff (p u v : List Char) : p ++ u < p ++ v ↔ u < v := by
  induction p with
  | nil => rfl
  | cons c p ih =>
    rw [List.cons_append, List.cons_append, List.cons_lt_cons_iff, ih,
      or_iff_right (Char.lt_irrefl c), and_iff_right rfl]

theorem PartAt.lt_iff (h : PartAt a b c d) : a < b ↔ c < d := by
  obtain ⟨hne, p, u, v, ha, hb⟩ := h
  rw [String.lt_iff, ha, hb, append_lt_append_iff, List.cons_lt_cons_iff,
    or_iff_left fun h => hne h.1]

theorem lt_of_initial (h : a.toList <+: b.toList) (hne : a ≠ b) : a < b := by
  obtain ⟨t, ht⟩ := h
  cases t with
  | nil => exact absurd (String.toList_injective (by rw [← ht, List.append_nil])) hne
  | cons c t =>
    have h := (append_lt_append_iff a.toList [] (c :: t)).2 (List.nil_lt_cons c t)
    rwa [List.append_nil, ht, ← String.lt_iff] at h

theorem Diverge.not_lt_iff (h : Diverge c d) : ¬(compareChars c d = .lt ↔ c < d) := by
  obtain ⟨hc, hd⟩ | ⟨hc, hd⟩ := h
  · have hcd : d.toNat < c.toNat := Nat.lt_of_le_of_lt hd.2 hc
    exact fun h => Nat.lt_asymm hcd (h.1 (if_pos ⟨hc, hd⟩))
  · have hcd : c.toNat < d.toNat := Nat.lt_of_le_of_lt hc.2 hd
    intro h
    have hlt := h.2 hcd
    rw [compareChars, if_neg fun h => hc.not_supplementary h.1, if_pos ⟨hc, hd⟩] at hlt
    cases hlt

theorem compareChars_eq_lt_iff (h : ¬Diverge c d) : compareChars c d = .lt ↔ c < d := by
  rw [compareChars, if_neg fun hcd => h (.inl hcd), if_neg fun hcd => h (.inr hcd),
    Nat.compare_eq_lt]
  rfl

/-- The two orders disagree just where the texts part at characters that diverge. -/
theorem not_precedes_iff_lt :
    ¬(Precedes a b ↔ a < b) ↔ ∃ c d, PartAt a b c d ∧ Diverge c d := by
  constructor
  · intro hdiffer
    by_cases hne : a = b
    · subst hne
      exact absurd (iff_of_false (irrefl a) (String.lt_irrefl a)) hdiffer
    · by_cases h : a.toList <+: b.toList
      · exact absurd (iff_of_true (precedes_of_initial h hne) (lt_of_initial h hne)) hdiffer
      · by_cases h' : b.toList <+: a.toList
        · have hba := lt_of_initial h' (Ne.symm hne)
          have hprecedes := precedes_of_initial h' (Ne.symm hne)
          exact absurd (iff_of_false (asymm hprecedes) (String.lt_asymm hba)) hdiffer
        · obtain ⟨c, d, hpart⟩ := exists_partAt h h'
          refine ⟨c, d, hpart, by_contra fun hd => hdiffer ?_⟩
          rw [Precedes, hpart.order_eq, hpart.lt_iff, compareChars_eq_lt_iff hd]
  · rintro ⟨c, d, hpart, hd⟩
    rw [Precedes, hpart.order_eq, hpart.lt_iff]
    exact hd.not_lt_iff

/-! ## The order is total -/

theorem isLE_order_iff : (order a b).isLE ↔ units a ≤ units b := by
  rw [← le_iff, le]
  cases order a b <;> simp

instance : Std.TransCmp order where
  eq_swap := (order_swap _ _).symm
  isLE_trans h h' := isLE_order_iff.2 ((isLE_order_iff.1 h).trans (isLE_order_iff.1 h'))

instance : Std.LawfulEqCmp order where
  compare_self := order_self _
  eq_of_compare h := units_injective (compareUnits_eq_iff.1 h)

/-- **The order of texts is total and agrees with equality.** A proper initial part comes first, and
where two texts part, the order of the two characters decides: it is that of their code points, but
a supplementary character comes before those from U+E000 to U+FFFF. Only there does it differ from
the order of texts by code points. Consequently, what is left of a sorted list without its repeats
increases strictly and has the same members. -/
theorem order_is_total :
    (∀ a, order a a = .eq) ∧
    (∀ a b, (order a b).isLE → (order b a).isLE → a = b) ∧
    (∀ a b c, (order a b).isLE → (order b c).isLE → (order a c).isLE) ∧
    (∀ a b, order a b = (order b a).swap) ∧
    (∀ a b, order a b = .eq ↔ a = b) ∧
    (∀ a b, a.toList <+: b.toList → a ≠ b → order a b = .lt) ∧
    (∀ a b, ¬a.toList <+: b.toList → ¬b.toList <+: a.toList → ∃ c d, PartAt a b c d) ∧
    (∀ a b c d, PartAt a b c d → order a b = compareChars c d) ∧
    (∀ a b, ¬(order a b = .lt ↔ a < b) ↔ ∃ c d, PartAt a b c d ∧ Diverge c d) ∧
    ∀ names, (dropRepeats (sort names)).Pairwise Precedes ∧
      ∀ n, n ∈ dropRepeats (sort names) ↔ n ∈ names :=
  ⟨order_self, fun _ _ h h' => Std.LawfulEqCmp.eq_of_compare (Std.OrientedCmp.isLE_antisymm h h'),
    fun _ _ _ => Std.TransCmp.isLE_trans, fun _ _ => Std.OrientedCmp.eq_swap,
    fun _ _ => Std.LawfulEqCmp.compare_eq_iff_eq, fun _ _ => precedes_of_initial,
    fun _ _ => exists_partAt, fun _ _ _ _ => PartAt.order_eq,
    fun _ _ => not_precedes_iff_lt,
    fun names => ⟨pairwise_sortDistinct names, fun _ => mem_sortDistinct⟩⟩

/-- A halfwidth stop has a smaller code point than an emoji, and comes after it. -/
theorem order_is_total_emoji :
    order "a" "a😀" = .lt ∧ order "a😀" "a｡" = .lt ∧ (order "a" "a｡").isLE ∧
      (∃ c d, PartAt "a😀" "a｡" c d) ∧ ¬(order "a😀" "a｡" = .lt ↔ "a😀" < "a｡") := by
  obtain ⟨-, -, htrans, -, -, hinitial, hparts, hpart, hdiffer, -⟩ := order_is_total
  have hat : PartAt "a😀" "a｡" '😀' '｡' := ⟨by decide, ['a'], [], [], rfl, rfl⟩
  have h₁ : order "a" "a😀" = .lt := hinitial _ _ ⟨['😀'], rfl⟩ (by decide)
  have h₂ : order "a😀" "a｡" = .lt := (hpart _ _ _ _ hat).trans (by decide)
  have h₃ := htrans _ _ _ (Ordering.isLE_of_eq_lt h₁) (Ordering.isLE_of_eq_lt h₂)
  refine ⟨h₁, h₂, h₃, hparts _ _ ?_ ?_, (hdiffer _ _).2 ⟨_, _, hat, .inl (by decide)⟩⟩
  · exact (by decide : ¬['a', '😀'] <+: ['a', '｡'])
  · exact (by decide : ¬['a', '｡'] <+: ['a', '😀'])

end ModuleGraph.Text

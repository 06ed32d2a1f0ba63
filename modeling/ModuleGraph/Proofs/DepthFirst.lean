import Mathlib.Data.List.Chain
import Mathlib.Data.List.Pairwise
import Mathlib.Order.Basic
import ModuleGraph.Proofs.Journal

/-! # Depth-first search with a stack of open cycles

Linking and evaluation search the graph in the same way. The path leads from the module being
visited up to the first one; the stack holds the path and every module below it whose cycle may
still reach up to the path. Each module on the stack has the time of its first visit and a lower
time that it can reach. When the head of the path reaches nothing lower than itself, it is the
root of a cycle: everything from it on is cut off the stack.

What the two searches need beyond this is kept in a relation between modules that hang together,
the earlier visited one first. -/

namespace ModuleGraph

open Relation

/-- A search in progress. The path is listed from the module being visited up. -/
structure Search (edge tied : ModuleId → ModuleId → Prop) (visit low : ModuleId → Nat)
    (visits : Nat) (stack path : List ModuleId) : Prop where
  numbered : ∀ x ∈ stack, visit x < visits
  sorted : stack.Pairwise fun x y => visit y < visit x
  along : ∀ x ∈ path, x ∈ stack
  upward : path.Pairwise fun x y => visit y < visit x
  chain : path.IsChain fun x y => edge y x
  low_le : ∀ x ∈ stack, low x ≤ visit x
  low_reached : ∀ x ∈ stack, ∃ y ∈ stack, visit y = low x ∧ ReflTransGen edge x y
  low_lt : ∀ x ∈ stack, x ∉ path → low x < visit x
  /-- A module that was left hangs on an earlier one. -/
  hung : ∀ y ∈ stack, y ∉ path → ∃ x ∈ stack, visit x < visit y ∧ edge x y ∧ tied x y ∧
    low x ≤ low y ∧ ∀ a ∈ path, visit a < visit y → visit a ≤ visit x
  below : ∀ x ∈ stack, ∃ a ∈ path, visit a ≤ visit x

namespace Search

variable {edge tied edge' tied' : ModuleId → ModuleId → Prop}
variable {visit low visit' low' : ModuleId → Nat} {visits : Nat}
variable {stack path : List ModuleId} {m n p x y : ModuleId}

theorem nil : Search edge tied visit low visits [] [] where
  numbered _ h := nomatch h
  sorted := .nil
  along _ h := nomatch h
  upward := .nil
  chain := .nil
  low_le _ h := nomatch h
  low_reached _ h := nomatch h
  low_lt _ h := nomatch h
  hung _ h := nomatch h
  below _ h := nomatch h

/-- The search sees the graph and the modules on the stack only. -/
theorem mono (h : Search edge tied visit low visits stack path)
    (he : ∀ x y, edge x y → edge' x y)
    (ht : ∀ x ∈ stack, ∀ y ∈ stack, y ∉ path → visit x < visit y → tied x y → tied' x y)
    (hv : ∀ x ∈ stack, visit' x = visit x) (hl : ∀ x ∈ stack, low' x = low x) :
    Search edge' tied' visit' low' visits stack path where
  numbered x hx := by
    rw [hv x hx]
    exact h.numbered x hx
  sorted := h.sorted.imp_of_mem fun hx hy hxy => by rwa [hv _ hx, hv _ hy]
  along := h.along
  upward := h.upward.imp_of_mem fun hx hy hxy => by
    rwa [hv _ (h.along _ hx), hv _ (h.along _ hy)]
  chain := h.chain.imp fun _ _ => he _ _
  low_le x hx := by
    rw [hv x hx, hl x hx]
    exact h.low_le x hx
  low_reached x hx := by
    obtain ⟨y, hy, hxy, hr⟩ := h.low_reached x hx
    exact ⟨y, hy, by rw [hv y hy, hl x hx, hxy], ReflTransGen.mono he x y hr⟩
  low_lt x hx hp := by
    rw [hv x hx, hl x hx]
    exact h.low_lt x hx hp
  hung y hy hp := by
    obtain ⟨x, hx, hxy, hedge, htied, hlow, hbetween⟩ := h.hung y hy hp
    refine ⟨x, hx, ?_, he _ _ hedge, ht x hx y hy hp hxy htied, ?_, fun a ha => ?_⟩
    · rwa [hv x hx, hv y hy]
    · rwa [hl x hx, hl y hy]
    · rw [hv a (h.along a ha), hv x hx, hv y hy]
      exact hbetween a ha
  below x hx := by
    obtain ⟨a, ha, hax⟩ := h.below x hx
    exact ⟨a, ha, by rwa [hv a (h.along a ha), hv x hx]⟩

theorem nodup (h : Search edge tied visit low visits stack path) : stack.Nodup :=
  h.sorted.imp fun hxy e => by
    subst e
    omega

theorem visit_injective (h : Search edge tied visit low visits stack path) (hx : x ∈ stack)
    (hy : y ∈ stack) (e : visit x = visit y) : x = y := by
  by_contra hne
  have hs : stack.Pairwise fun x y => visit x ≠ visit y := h.sorted.imp fun hxy => by omega
  have : Std.Symm fun x y => visit x ≠ visit y := ⟨fun _ _ => Ne.symm⟩
  exact hs.forall hx hy hne e

theorem path_lt (h : Search edge tied visit low visits stack (m :: path)) (hx : x ∈ path) :
    visit x < visit m := List.rel_of_pairwise_cons h.upward hx

theorem head_mem (h : Search edge tied visit low visits stack (m :: path)) : m ∈ stack :=
  h.along m (List.mem_cons_self ..)

theorem not_mem_path (h : Search edge tied visit low visits stack (m :: path)) : m ∉ path :=
  fun hm => Nat.lt_irrefl _ (h.path_lt hm)

/-- A search that is back above the first module has no open cycles. -/
theorem stack_eq_nil (h : Search edge tied visit low visits stack []) : stack = [] := by
  cases stack with
  | nil => rfl
  | cons x rest =>
    obtain ⟨a, ha, -⟩ := h.below x (List.mem_cons_self ..)
    cases ha

/-- The first visited module is the root of its cycle. -/
theorem low_eq_of_first (h : Search edge tied visit low visits stack [m]) : low m = visit m := by
  obtain ⟨y, hy, hlow, -⟩ := h.low_reached m h.head_mem
  obtain ⟨a, ha, hay⟩ := h.below y hy
  have hle := h.low_le m h.head_mem
  rw [List.mem_singleton.1 ha] at hay
  omega

/-! ## Steps of the search -/

theorem enter (h : Search edge tied visit low visits stack path) (hm : m ∉ stack)
    (hedge : ∀ p ∈ path.head?, edge p m) (hv : visit m = visits) (hl : low m = visits) :
    Search edge tied visit low (visits + 1) (m :: stack) (m :: path) where
  numbered x hx := by
    obtain rfl | hx := List.mem_cons.1 hx
    · omega
    · have := h.numbered x hx
      omega
  sorted := List.pairwise_cons.2 ⟨fun x hx => by rw [hv]; exact h.numbered x hx, h.sorted⟩
  along x hx := by
    obtain rfl | hx := List.mem_cons.1 hx
    · exact List.mem_cons_self ..
    · exact List.mem_cons_of_mem _ (h.along x hx)
  upward := List.pairwise_cons.2
    ⟨fun x hx => by rw [hv]; exact h.numbered x (h.along x hx), h.upward⟩
  chain := List.isChain_cons.2 ⟨fun p hp => hedge p hp, h.chain⟩
  low_le x hx := by
    obtain rfl | hx := List.mem_cons.1 hx
    · omega
    · exact h.low_le x hx
  low_reached x hx := by
    obtain rfl | hx := List.mem_cons.1 hx
    · exact ⟨x, List.mem_cons_self .., by omega, .refl⟩
    · obtain ⟨y, hy, hxy⟩ := h.low_reached x hx
      exact ⟨y, List.mem_cons_of_mem _ hy, hxy⟩
  low_lt x hx hp := by
    obtain rfl | hx := List.mem_cons.1 hx
    · exact absurd (List.mem_cons_self ..) hp
    · exact h.low_lt x hx fun hp' => hp (List.mem_cons_of_mem _ hp')
  hung y hy hp := by
    obtain rfl | hy' := List.mem_cons.1 hy
    · exact absurd (List.mem_cons_self ..) hp
    · obtain ⟨x, hx, hxy, he, ht, hlow, hbetween⟩ :=
        h.hung y hy' fun hp' => hp (List.mem_cons_of_mem _ hp')
      refine ⟨x, List.mem_cons_of_mem _ hx, hxy, he, ht, hlow, fun a ha hay => ?_⟩
      obtain rfl | ha := List.mem_cons.1 ha
      · have := h.numbered y hy'
        omega
      · exact hbetween a ha hay
  below x hx := by
    obtain rfl | hx := List.mem_cons.1 hx
    · exact ⟨x, List.mem_cons_self .., le_rfl⟩
    · obtain ⟨a, ha, hax⟩ := h.below x hx
      exact ⟨a, List.mem_cons_of_mem _ ha, hax⟩

/-- The head of the path notes what a module on the stack reaches. -/
theorem reach (h : Search edge tied visit low visits stack (m :: path)) (hn : n ∈ stack)
    (hedge : edge m n) (hm : low' m = min (low m) (low n)) (hl : ∀ x, x ≠ m → low' x = low x) :
    Search edge tied visit low' visits stack (m :: path) where
  numbered := h.numbered
  sorted := h.sorted
  along := h.along
  upward := h.upward
  chain := h.chain
  low_le x hx := by
    have hle := h.low_le x hx
    by_cases e : x = m
    · subst e
      omega
    · rwa [hl x e]
  low_reached x hx := by
    by_cases e : x = m
    · subst e
      rcases Nat.le_total (low x) (low n) with hle | hle
      · obtain ⟨y, hy, hxy, hr⟩ := h.low_reached x hx
        exact ⟨y, hy, by omega, hr⟩
      · obtain ⟨y, hy, hny, hr⟩ := h.low_reached n hn
        exact ⟨y, hy, by omega, .head hedge hr⟩
    · rw [hl x e]
      exact h.low_reached x hx
  low_lt x hx hp := by
    rw [hl x fun e => hp (e ▸ List.mem_cons_self ..)]
    exact h.low_lt x hx hp
  hung y hy hp := by
    obtain ⟨x, hx, hxy, he, ht, hlow, hbetween⟩ := h.hung y hy hp
    refine ⟨x, hx, hxy, he, ht, ?_, hbetween⟩
    rw [hl y fun e => hp (e ▸ List.mem_cons_self ..)]
    by_cases e : x = m
    · subst e
      omega
    · rwa [hl x e]
  below := h.below

/-- The head of the path is left open, and the module above it notes what it reaches. -/
theorem leave (h : Search edge tied visit low visits stack (m :: p :: path))
    (hlow : low m < visit m) (ht : tied p m) (hp : low' p = min (low p) (low m))
    (hl : ∀ x, x ≠ p → low' x = low x) :
    Search edge tied visit low' visits stack (p :: path) := by
  have hedge : edge p m := (List.isChain_cons_cons.1 h.chain).1
  have hpm : p ≠ m := by
    rintro rfl
    exact h.not_mem_path (List.mem_cons_self ..)
  have hle : ∀ x, low' x ≤ low x := by
    intro x
    by_cases e : x = p
    · subst e
      omega
    · rw [hl x e]
  refine ⟨h.numbered, h.sorted, fun x hx => h.along x (List.mem_cons_of_mem _ hx),
    h.upward.of_cons, h.chain.tail, fun x hx => (hle x).trans (h.low_le x hx), fun x hx => ?_,
    fun x hx hp' => ?_, fun y hy hp' => ?_, fun x hx => ?_⟩
  · by_cases e : x = p
    · subst e
      rcases Nat.le_total (low x) (low m) with hle | hle
      · obtain ⟨y, hy, hxy, hr⟩ := h.low_reached x hx
        exact ⟨y, hy, by omega, hr⟩
      · obtain ⟨y, hy, hny, hr⟩ := h.low_reached m h.head_mem
        exact ⟨y, hy, by omega, .head hedge hr⟩
    · rw [hl x e]
      exact h.low_reached x hx
  · by_cases e : x = m
    · rwa [e, hl m hpm.symm]
    · exact (hle x).trans_lt (h.low_lt x hx fun hx' => hp' ((List.mem_cons.1 hx').resolve_left e))
  · have hyp : y ≠ p := fun e => hp' (e ▸ List.mem_cons_self ..)
    by_cases e : y = m
    · subst e
      refine ⟨p, h.along p (by simp), h.path_lt (List.mem_cons_self ..), hedge, ht, ?_,
        fun a ha _ => ?_⟩
      · rw [hp, hl y hyp]
        exact min_le_right _ _
      · obtain rfl | ha := List.mem_cons.1 ha
        · exact le_rfl
        · exact (List.rel_of_pairwise_cons h.upward.of_cons ha).le
    · obtain ⟨x, hx, hxy, he, ht, hlow, hbetween⟩ :=
        h.hung y hy fun hy' => hp' ((List.mem_cons.1 hy').resolve_left e)
      refine ⟨x, hx, hxy, he, ht, ?_, fun a ha => hbetween a (List.mem_cons_of_mem _ ha)⟩
      rw [hl y hyp]
      exact (hle x).trans hlow
  · obtain ⟨a, ha, hax⟩ := h.below x hx
    obtain rfl | ha := List.mem_cons.1 ha
    · exact ⟨p, List.mem_cons_self .., (h.path_lt (List.mem_cons_self ..)).le.trans hax⟩
    · exact ⟨a, ha, hax⟩

/-! ## Cycles -/

/-- What was visited before the head of the path is below it on the stack. -/
theorem mem_below {pre post : List ModuleId}
    (h : Search edge tied visit low visits (pre ++ m :: post) path) :
    x ∈ post ↔ x ∈ pre ++ m :: post ∧ visit x < visit m := by
  have hs := List.pairwise_append.1 h.sorted
  constructor
  · exact fun hx => ⟨by simp [hx], List.rel_of_pairwise_cons hs.2.1 hx⟩
  · rintro ⟨hx, hxm⟩
    rcases List.mem_append.1 hx with hx | hx
    · have := hs.2.2 x hx m (List.mem_cons_self ..)
      omega
    · obtain rfl | hx := List.mem_cons.1 hx
      · omega
      · exact hx

/-- The cycle of the head of the path is cut off the stack. -/
theorem close {pre post : List ModuleId}
    (h : Search edge tied visit low visits (pre ++ m :: post) (m :: path)) :
    Search edge tied visit low visits post path where
  numbered x hx := h.numbered x (h.mem_below.1 hx).1
  sorted := (List.pairwise_append.1 h.sorted).2.1.of_cons
  along x hx := h.mem_below.2 ⟨h.along x (List.mem_cons_of_mem _ hx), h.path_lt hx⟩
  upward := h.upward.of_cons
  chain := h.chain.tail
  low_le x hx := h.low_le x (h.mem_below.1 hx).1
  low_reached x hx := by
    obtain ⟨hx, hxm⟩ := h.mem_below.1 hx
    obtain ⟨y, hy, hxy, hr⟩ := h.low_reached x hx
    have hle := h.low_le x hx
    exact ⟨y, h.mem_below.2 ⟨hy, by omega⟩, hxy, hr⟩
  low_lt x hx hp := by
    obtain ⟨hx, hxm⟩ := h.mem_below.1 hx
    refine h.low_lt x hx fun hp' => ?_
    obtain rfl | hp' := List.mem_cons.1 hp'
    · omega
    · exact hp hp'
  hung y hy hp := by
    obtain ⟨hy, hym⟩ := h.mem_below.1 hy
    have hp' : y ∉ m :: path := by
      intro hp'
      obtain rfl | hp' := List.mem_cons.1 hp'
      · omega
      · exact hp hp'
    obtain ⟨x, hx, hxy, he, ht, hlow, hbetween⟩ := h.hung y hy hp'
    exact ⟨x, h.mem_below.2 ⟨hx, by omega⟩, hxy, he, ht, hlow,
      fun a ha => hbetween a (List.mem_cons_of_mem _ ha)⟩
  below x hx := by
    obtain ⟨hx, hxm⟩ := h.mem_below.1 hx
    obtain ⟨a, ha, hax⟩ := h.below x hx
    obtain rfl | ha := List.mem_cons.1 ha
    · omega
    · exact ⟨a, ha, hax⟩

/-- A module of the cycle of the head of the path, apart from the head, hangs on an earlier one of
the cycle. -/
theorem hung_in_cycle (h : Search edge tied visit low visits stack (m :: path)) (hy : y ∈ stack)
    (hm : visit m < visit y) :
    ∃ x ∈ stack, visit m ≤ visit x ∧ visit x < visit y ∧ edge x y ∧ tied x y ∧ low x ≤ low y := by
  have hp : y ∉ m :: path := by
    intro hp
    obtain rfl | hp := List.mem_cons.1 hp
    · omega
    · have := h.path_lt hp
      omega
  obtain ⟨x, hx, hxy, he, ht, hlow, hbetween⟩ := h.hung y hy hp
  exact ⟨x, hx, hbetween m (List.mem_cons_self ..) hm, hxy, he, ht, hlow⟩

/-- What is hung below the head of the path reaches nothing that the head does not reach, and is
reached from it. -/
theorem from_head (h : Search edge tied visit low visits stack (m :: path)) :
    ∀ k, ∀ y ∈ stack, visit y = k → visit m ≤ visit y →
      low m ≤ low y ∧ ReflTransGen edge m y := by
  intro k
  induction k using Nat.strong_induction_on with
  | _ k ih =>
    intro y hy hk hmy
    rcases Nat.eq_or_lt_of_le hmy with e | hlt
    · rw [h.visit_injective h.head_mem hy e]
      exact ⟨le_rfl, .refl⟩
    · obtain ⟨x, hx, hmx, hxy, he, -, hlow⟩ := h.hung_in_cycle hy hlt
      obtain ⟨hmlow, hr⟩ := ih (visit x) (by omega) x hx rfl hmx
      exact ⟨hmlow.trans hlow, hr.tail he⟩

theorem low_head_le (h : Search edge tied visit low visits stack (m :: path)) (hy : y ∈ stack)
    (hm : visit m ≤ visit y) : low m ≤ low y := (h.from_head _ y hy rfl hm).1

theorem reached_from_head (h : Search edge tied visit low visits stack (m :: path))
    (hy : y ∈ stack) (hm : visit m ≤ visit y) : ReflTransGen edge m y :=
  (h.from_head _ y hy rfl hm).2

theorem reaches_root (h : Search edge tied visit low visits stack (m :: path))
    (hroot : low m = visit m) :
    ∀ k, ∀ y ∈ stack, visit y = k → visit m ≤ visit y → ReflTransGen edge y m := by
  intro k
  induction k using Nat.strong_induction_on with
  | _ k ih =>
    intro y hy hk hmy
    rcases Nat.eq_or_lt_of_le hmy with e | hlt
    · rw [h.visit_injective h.head_mem hy e]
    · have hp : y ∉ m :: path := by
        intro hp
        obtain rfl | hp := List.mem_cons.1 hp
        · omega
        · have := h.path_lt hp
          omega
      have hlt' := h.low_lt y hy hp
      have hlow := h.low_head_le hy hmy
      obtain ⟨z, hz, hzy, hr⟩ := h.low_reached y hy
      exact hr.trans (ih (visit z) (by omega) z hz rfl (by omega))

theorem path_reaches_head (h : Search edge tied visit low visits stack (m :: path))
    (hx : x ∈ m :: path) : ReflTransGen edge x m := by
  have hc : (m :: path).IsChain fun x y => ReflTransGen edge y x :=
    h.chain.imp fun _ _ he => .single he
  obtain rfl | hx := List.mem_cons.1 hx
  · exact .refl
  · have : IsTrans ModuleId fun x y => ReflTransGen edge y x := ⟨fun _ _ _ h h' => h'.trans h⟩
    exact List.rel_of_pairwise_cons hc.pairwise hx

/-- Every open module reaches the one being visited. -/
theorem reaches_head (h : Search edge tied visit low visits stack (m :: path)) :
    ∀ k, ∀ x ∈ stack, visit x = k → ReflTransGen edge x m := by
  intro k
  induction k using Nat.strong_induction_on with
  | _ k ih =>
    intro x hx hk
    by_cases hp : x ∈ m :: path
    · exact h.path_reaches_head hp
    · have hlt := h.low_lt x hx hp
      obtain ⟨y, hy, hyx, hr⟩ := h.low_reached x hx
      exact hr.trans (ih (visit y) (by omega) y hy rfl)

end Search

theorem Traversal.close_of_stack {t : Traversal} {m : ModuleId} {pre post : List ModuleId}
    (h : t.stack = pre ++ m :: post) (hm : m ∉ pre) :
    t.close m = (pre ++ [m], { t with stack := post }) := by
  have hpre : ∀ x ∈ pre, (x != m) = true := by
    intro x hx
    simp only [bne_iff_ne]
    rintro rfl
    exact hm hx
  have htake : t.stack.takeWhile (· != m) = pre := by
    rw [h, List.takeWhile_append_of_pos hpre]
    simp
  have hdrop : t.stack.dropWhile (· != m) = m :: post := by
    rw [h, List.dropWhile_append_of_pos hpre]
    simp
  simp [Traversal.close, htake, hdrop]

def Machine.visitOf {σ κ : Type} (s : Machine σ κ) (m : ModuleId) : Nat :=
  (s.cyclic m).visit.getD 0

def Machine.lowOf {σ κ : Type} (s : Machine σ κ) (m : ModuleId) : Nat :=
  (s.cyclic m).ancestor.getD 0

namespace Machine

variable {σ κ : Type} {s s' : Machine σ κ} {m n : ModuleId}

theorem visitOf_of_cyclic? (h : s'.cyclic? m = s.cyclic? m) : s'.visitOf m = s.visitOf m := by
  rw [visitOf, cyclic, h, ← cyclic, ← visitOf]

theorem lowOf_of_cyclic? (h : s'.cyclic? m = s.cyclic? m) : s'.lowOf m = s.lowOf m := by
  rw [lowOf, cyclic, h, ← cyclic, ← lowOf]

theorem visitOf_updateCyclic {f : Cyclic → Cyclic} (hf : ∀ c, (f c).visit = c.visit) :
    (s.updateCyclic m f).visitOf n = s.visitOf n :=
  field_updateCyclic (fun c => c.visit.getD 0) fun c => by rw [hf]

/-- A module notes the lowest time that another one is known to reach. -/
theorem lowOf_reach {c d : Cyclic} (h : s.Has m) (hm : s.cyclic? m = some c)
    (hn : s.cyclic? n = some d) (hc : c.ancestor.isSome) (hd : d.ancestor.isSome) :
    (s.updateCyclic m (·.reach d.ancestor)).lowOf m = min (s.lowOf m) (s.lowOf n) := by
  obtain ⟨i, hi⟩ := Option.isSome_iff_exists.1 hc
  obtain ⟨j, hj⟩ := Option.isSome_iff_exists.1 hd
  rw [lowOf, cyclic_updateCyclic_self _ h hm, lowOf, lowOf, cyclic_of_cyclic? hm,
    cyclic_of_cyclic? hn]
  simp [Cyclic.reach, hi, hj]

end Machine

end ModuleGraph

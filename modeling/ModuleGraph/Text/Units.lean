/-! # Text by 16-bit units

A character up to U+FFFF is one unit, a later one a pair of surrogates. Lengths and the order of
exported names are measured in these units, so U+E000 to U+FFFF come after every pair. -/

namespace ModuleGraph.Text

def unitsOf (c : Char) : List Nat :=
  let n := c.toNat
  if n < 0x10000 then [n]
  else [0xD800 + (n - 0x10000) / 0x400, 0xDC00 + (n - 0x10000) % 0x400]

def units (s : String) : List Nat := s.toList.flatMap unitsOf

def unitLength (s : String) : Nat := (units s).length

/-- Lexicographic comparison of unit sequences; a proper initial part comes first. -/
def compareUnits : List Nat → List Nat → Ordering
  | [], [] => .eq
  | [], _ :: _ => .lt
  | _ :: _, [] => .gt
  | a :: as, b :: bs => if a < b then .lt else if b < a then .gt else compareUnits as bs

/-- The order of texts by their units. -/
def order (a b : String) : Ordering := compareUnits (units a) (units b)

/-- Whether `a` comes before `b` or is equal to it. -/
def le (a b : String) : Bool := order a b != .gt

/-- The list in unit order; equal texts keep their places. -/
def sort (names : List String) : List String := names.mergeSort le

/-- Drops each text that equals the one just before it. -/
def dropRepeats : List String → List String
  | [] => []
  | [a] => [a]
  | a :: b :: rest => if a = b then dropRepeats (b :: rest) else a :: dropRepeats (b :: rest)

/-- The distinct names in unit order. -/
def sortDistinct (names : List String) : List String := dropRepeats (sort names)

theorem units_append (a b : String) : units (a ++ b) = units a ++ units b := by
  simp [units]

theorem unitLength_append (a b : String) : unitLength (a ++ b) = unitLength a + unitLength b := by
  simp [unitLength, units_append]

@[simp] theorem compareUnits_self (a : List Nat) : compareUnits a a = .eq := by
  induction a with
  | nil => rfl
  | cons n a ih => simp [compareUnits, ih]

@[simp] theorem order_self (s : String) : order s s = .eq := compareUnits_self _

theorem compareUnits_eq_iff {a b : List Nat} : compareUnits a b = .eq ↔ a = b := by
  induction a generalizing b with
  | nil => cases b <;> simp [compareUnits]
  | cons m a ih =>
    cases b with
    | nil => simp [compareUnits]
    | cons n b =>
      rcases Nat.lt_trichotomy m n with h | rfl | h
      · simp [compareUnits, h, Nat.ne_of_lt h]
      · simp [compareUnits, ih]
      · simp [compareUnits, h, Nat.lt_asymm h, Nat.ne_of_gt h]

theorem compareUnits_swap (a b : List Nat) : (compareUnits a b).swap = compareUnits b a := by
  induction a generalizing b with
  | nil => cases b <;> rfl
  | cons m a ih =>
    cases b with
    | nil => rfl
    | cons n b =>
      rcases Nat.lt_trichotomy m n with h | rfl | h
      · simp [compareUnits, h, Nat.lt_asymm h]
      · simp [compareUnits, ih]
      · simp [compareUnits, h, Nat.lt_asymm h]

theorem order_swap (a b : String) : (order a b).swap = order b a := compareUnits_swap _ _

theorem mem_sort {n : String} {names : List String} : n ∈ sort names ↔ n ∈ names :=
  (List.mergeSort_perm names le).mem_iff

theorem mem_dropRepeats {n : String} {names : List String} :
    n ∈ dropRepeats names ↔ n ∈ names := by
  fun_induction dropRepeats names with
  | case1 => rfl
  | case2 => rfl
  | case3 a rest ih => simp [ih]
  | case4 a b rest h ih => simp [ih]

theorem mem_sortDistinct {n : String} {names : List String} :
    n ∈ sortDistinct names ↔ n ∈ names := by
  rw [sortDistinct, mem_dropRepeats, mem_sort]

end ModuleGraph.Text

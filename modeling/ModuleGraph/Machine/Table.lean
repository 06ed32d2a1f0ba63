/-! # Tables

A table lists entries with their keys in the order in which the keys came. Setting the entry of a
key that is there keeps its place, so a table that is built by setting entries has each key once. -/

namespace ModuleGraph

abbrev Table (α β : Type) := List (α × β)

namespace Table

variable {α β : Type}

def keys (t : Table α β) : List α := t.map (·.1)

variable [DecidableEq α]

def get? : Table α β → α → Option β
  | [], _ => none
  | (k, entry) :: rest, key => if k = key then some entry else get? rest key

def has (t : Table α β) (key : α) : Bool := (t.get? key).isSome

/-- Sets the entry of a key. A new key comes last. -/
def put : Table α β → α → β → Table α β
  | [], key, entry => [(key, entry)]
  | (k, old) :: rest, key, entry =>
    if k = key then (key, entry) :: rest else (k, old) :: put rest key entry

@[simp] theorem get?_nil (key : α) : get? ([] : Table α β) key = none := rfl

@[simp] theorem get?_put_self (t : Table α β) (key : α) (entry : β) :
    (t.put key entry).get? key = some entry := by
  induction t with
  | nil => simp [put, get?]
  | cons p rest ih => by_cases h : p.1 = key <;> simp [put, get?, h, ih]

theorem get?_put_of_ne (t : Table α β) {key other : α} (entry : β) (h : key ≠ other) :
    (t.put key entry).get? other = t.get? other := by
  induction t with
  | nil => simp [put, get?, h]
  | cons p rest ih =>
    by_cases hk : p.1 = key
    · simp [put, get?, hk, h]
    · simp only [put, hk, if_false, get?]
      rw [ih]

theorem has_iff_mem_keys (t : Table α β) (key : α) : t.has key ↔ key ∈ t.keys := by
  induction t with
  | nil => simp [has, keys]
  | cons p rest ih =>
    by_cases h : p.1 = key
    · simp [has, get?, keys, h]
    · simpa [has, get?, keys, h, Ne.symm h] using ih

theorem keys_put_of_has (t : Table α β) {key : α} (entry : β) (h : t.has key) :
    (t.put key entry).keys = t.keys := by
  induction t with
  | nil => simp [has] at h
  | cons p rest ih =>
    by_cases hk : p.1 = key
    · simp [put, keys, hk]
    · have hr : has rest key := by simpa [has, get?, hk] using h
      simpa [put, keys, hk] using ih hr

theorem mem_of_get? {t : Table α β} {key : α} {entry : β} (h : t.get? key = some entry) :
    (key, entry) ∈ t := by
  induction t with
  | nil => cases h
  | cons e rest ih =>
    rw [get?] at h
    split at h
    · rename_i hkey
      cases h
      rw [← hkey]
      exact List.mem_cons_self
    · exact List.mem_cons_of_mem _ (ih h)

/-- A new entry comes last. -/
theorem put_of_not_has (t : Table α β) {key : α} (entry : β) (h : ¬t.has key) :
    t.put key entry = t ++ [(key, entry)] := by
  induction t with
  | nil => rfl
  | cons e rest ih =>
    by_cases hk : e.1 = key
    · simp [has, get?, hk] at h
    · have hr : ¬has rest key := by simpa [has, get?, hk] using h
      rw [put, if_neg hk, ih hr, List.cons_append]

theorem keys_put_of_not_has (t : Table α β) {key : α} (entry : β) (h : ¬t.has key) :
    (t.put key entry).keys = t.keys ++ [key] := by
  rw [put_of_not_has t entry h, keys, List.map_append]
  rfl

theorem get?_of_mem {t : Table α β} {key : α} {entry : β} (hk : t.keys.Nodup)
    (h : (key, entry) ∈ t) : t.get? key = some entry := by
  induction t with
  | nil => cases h
  | cons e rest ih =>
    obtain ⟨hout, hrest⟩ := List.nodup_cons.1 hk
    rcases List.mem_cons.1 h with rfl | h
    · exact if_pos rfl
    · have hne : e.1 ≠ key := fun he => hout (List.mem_map.2 ⟨_, h, he.symm⟩)
      rw [get?, if_neg hne]
      exact ih hrest h

/-- Setting an entry keeps the keys apart. -/
theorem nodup_keys_put (t : Table α β) (key : α) (entry : β) (h : t.keys.Nodup) :
    (t.put key entry).keys.Nodup := by
  by_cases hk : t.has key
  · rwa [keys_put_of_has t entry hk]
  · rw [keys_put_of_not_has t entry hk]
    rw [has_iff_mem_keys] at hk
    refine List.nodup_append.2 ⟨h, by simp, ?_⟩
    intro a ha b hb
    rw [List.mem_singleton.1 hb]
    exact fun e => hk (e ▸ ha)

end Table

end ModuleGraph

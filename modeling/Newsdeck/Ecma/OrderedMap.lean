import Mathlib.Data.List.Basic
import Mathlib.Data.List.Nodup

/-!
# Insertion-ordered maps

A JavaScript `Map` as the list of its entries in insertion order.  Setting a key that is present
replaces the value where it stands; setting a new key appends it.
-/

namespace Ecma

/-- The entries of a `Map`, in iteration order. -/
abbrev OrderedMap (κ ν : Type) := List (κ × ν)

namespace OrderedMap

variable {κ ν : Type} [DecidableEq κ]

/-- `map.get(key)`. -/
def get? (m : OrderedMap κ ν) (key : κ) : Option ν := List.lookup key m

/-- `map.set(key, value)`. -/
def set (key : κ) (value : ν) : OrderedMap κ ν → OrderedMap κ ν
  | [] => [(key, value)]
  | (k, v) :: rest => if key = k then (k, value) :: rest else (k, v) :: set key value rest

/-- `[...map.values()]`. -/
def values (m : OrderedMap κ ν) : List ν := m.map Prod.snd

@[simp] theorem get?_nil (key : κ) : get? ([] : OrderedMap κ ν) key = none := rfl

theorem get?_cons (key k : κ) (v : ν) (m : OrderedMap κ ν) :
    get? ((k, v) :: m) key = if key = k then some v else get? m key := by
  unfold get?
  rw [List.lookup_cons]
  by_cases h : key = k
  · simp [h]
  · have hne : (key == k) = false := by simpa using h
    simp [h, hne]

theorem get?_set (key k : κ) (v : ν) (m : OrderedMap κ ν) :
    get? (set k v m) key = if key = k then some v else get? m key := by
  induction m with
  | nil => simp [set, get?_cons]
  | cons e m ih =>
    obtain ⟨k', v'⟩ := e
    unfold set
    split
    · rename_i h
      subst h
      by_cases hk : key = k <;> simp [get?_cons, hk]
    · rename_i h
      rw [get?_cons, get?_cons, ih]
      by_cases hk : key = k
      · subst hk
        simp [h]
      · simp [hk]

/-- `[...map.keys()]`. -/
def keys (m : OrderedMap κ ν) : List κ := m.map Prod.fst

theorem mem_keys_iff {m : OrderedMap κ ν} {key : κ} : key ∈ keys m ↔ ∃ v, get? m key = some v := by
  induction m with
  | nil => simp [keys]
  | cons e m ih =>
    obtain ⟨k, v⟩ := e
    rw [get?_cons]
    by_cases h : key = k
    · simp [keys, h]
    · rw [if_neg h, ← ih]
      simp [keys, h]

theorem keys_set (m : OrderedMap κ ν) (k : κ) (v : ν) :
    keys (set k v m) = if k ∈ keys m then keys m else keys m ++ [k] := by
  induction m with
  | nil => simp [set, keys]
  | cons e m ih =>
    obtain ⟨l, w⟩ := e
    unfold set
    by_cases h : k = l
    · simp [keys, h]
    · rw [if_neg h]
      show l :: keys (set k v m) = if k ∈ l :: keys m then l :: keys m else l :: keys m ++ [k]
      rw [ih]
      by_cases hk : k ∈ keys m
      · rw [if_pos hk, if_pos (List.mem_cons_of_mem l hk)]
      · rw [if_neg hk, if_neg (show k ∉ l :: keys m by simp [h, hk])]
        rfl

theorem nodup_keys_set {m : OrderedMap κ ν} (h : (keys m).Nodup) (k : κ) (v : ν) :
    (keys (set k v m)).Nodup := by
  rw [keys_set]
  split
  · exact h
  · rename_i hk
    exact List.nodup_append.mpr ⟨h, List.nodup_singleton k, by
      intro a ha b hb
      rw [List.mem_singleton.mp hb]
      rintro rfl
      exact hk ha⟩

/-- When no key stands twice, an entry is what is found under its key. -/
theorem get?_eq_some_iff {m : OrderedMap κ ν} (h : (keys m).Nodup) {key : κ} {v : ν} :
    get? m key = some v ↔ (key, v) ∈ m := by
  induction m with
  | nil => simp
  | cons e m ih =>
    obtain ⟨k, w⟩ := e
    obtain ⟨hk, hrest⟩ := List.nodup_cons.mp (show (k :: keys m).Nodup from h)
    rw [get?_cons]
    by_cases hkey : key = k
    · subst hkey
      have hother : (key, v) ∉ m := fun hmem => hk (List.mem_map_of_mem hmem)
      simp [hother, eq_comm]
    · rw [if_neg hkey, ih hrest]
      simp [hkey]

/-- What a loop that sets keys leaves unset. -/
theorem get?_foldl_set_eq_none_iff {α : Type} (key : α → κ) (value : α → ν) (k : κ) (xs : List α) :
    ∀ m : OrderedMap κ ν, get? (xs.foldl (fun m x => set (key x) (value x) m) m) k = none ↔
      (∀ x ∈ xs, key x ≠ k) ∧ get? m k = none := by
  induction xs with
  | nil => simp
  | cons x xs ih =>
    intro m
    rw [List.foldl_cons, ih, get?_set]
    by_cases hk : k = key x
    · simp [hk]
    · simp [hk, Ne.symm hk]

/-- What a loop that sets keys leaves under a key: something it has set there, or what stood there. -/
theorem get?_foldl_set {α : Type} (key : α → κ) (value : α → ν) (k : κ) (v : ν) (xs : List α) :
    ∀ m : OrderedMap κ ν, get? (xs.foldl (fun m x => set (key x) (value x) m) m) k = some v →
      (∃ x ∈ xs, key x = k ∧ value x = v) ∨ get? m k = some v := by
  induction xs with
  | nil => exact fun _ h => .inr h
  | cons x xs ih =>
    intro m h
    rcases ih _ h with ⟨y, hy, hset⟩ | hbefore
    · exact .inl ⟨y, List.mem_cons_of_mem x hy, hset⟩
    · rw [get?_set] at hbefore
      by_cases hk : k = key x
      · rw [if_pos hk] at hbefore
        exact .inl ⟨x, List.mem_cons_self, hk.symm, Option.some.inj hbefore⟩
      · rw [if_neg hk] at hbefore
        exact .inr hbefore

theorem mem_values_of_get? {m : OrderedMap κ ν} {key : κ} {v : ν} (h : get? m key = some v) :
    v ∈ values m := by
  induction m with
  | nil => simp at h
  | cons e m ih =>
    obtain ⟨k, w⟩ := e
    rw [get?_cons] at h
    split at h
    · simp only [Option.some.injEq] at h
      simp [values, h]
    · exact List.mem_cons_of_mem _ (ih h)

/-- Setting a key adds no value but the one that was set. -/
theorem mem_values_set {m : OrderedMap κ ν} {key : κ} {v w : ν} (h : w ∈ values (set key v m)) :
    w = v ∨ w ∈ values m := by
  induction m with
  | nil => simpa [set, values] using h
  | cons e m ih =>
    obtain ⟨k, u⟩ := e
    unfold set at h
    split at h
    · rcases List.mem_cons.mp h with rfl | hw
      · exact .inl rfl
      · exact .inr (List.mem_cons_of_mem _ hw)
    · rcases List.mem_cons.mp h with rfl | hw
      · exact .inr (by simp [values])
      · exact (ih hw).imp_right (List.mem_cons_of_mem _)

end OrderedMap

end Ecma

import Mathlib.Data.List.Sort

/-!
# The first of a list by a key

A list sorted by a key and searched from the front yields the least element that passes the search.

* `find_byKey_eq_none` — nothing is found exactly when nothing passes;
* `find_byKey_eq_some` — on a list whose keys are distinct, what is found is the leader;
* `byKey_perm` — and the sorted list is that of every permutation.
-/

namespace Priority

variable {α κ : Type} [LinearOrder κ] (key : α → κ)

/-- The list, least key first; equal keys keep their order. -/
def byKey (l : List α) : List α := l.insertionSort fun a b => key a ≤ key b

/-- The element passes the test, and no element that does has a smaller key. -/
def Leads (p : α → Prop) (l : List α) (a : α) : Prop :=
  a ∈ l ∧ p a ∧ ∀ b ∈ l, p b → key a ≤ key b

@[simp] theorem mem_byKey {l : List α} {a : α} : a ∈ byKey key l ↔ a ∈ l :=
  List.mem_insertionSort _

theorem pairwise_byKey (l : List α) : (byKey key l).Pairwise fun a b => key a ≤ key b := by
  have : Std.Total fun a b : α => key a ≤ key b := ⟨fun a b => le_total (key a) (key b)⟩
  have : IsTrans α fun a b => key a ≤ key b := ⟨fun _ _ _ => le_trans⟩
  exact List.pairwise_insertionSort _ l

/-- On elements with distinct keys the order of the list does not matter. -/
theorem byKey_perm {l l' : List α} (hperm : l.Perm l') (hkey : ∀ x ∈ l, ∀ y ∈ l, key x = key y → x = y) :
    byKey key l = byKey key l' := by
  have hsorted : (byKey key l).Perm (byKey key l') :=
    (List.perm_insertionSort _ l).trans (hperm.trans (List.perm_insertionSort _ l').symm)
  refine List.Perm.eq_of_pairwise (fun x y hx _ hxy hyx => ?_) (pairwise_byKey key l) (pairwise_byKey key l')
    hsorted
  rename_i hy
  rw [mem_byKey] at hx hy
  exact hkey x hx y (hperm.mem_iff.mpr hy) (le_antisymm hxy hyx)

theorem find_byKey_eq_none {l : List α} {p : α → Bool} :
    (byKey key l).find? p = none ↔ ∀ a ∈ l, ¬ p a = true := by
  simp [List.find?_eq_none]

/-- What the search finds leads. -/
theorem leads_of_find {l : List α} {p : α → Bool} {a : α} (h : (byKey key l).find? p = some a) :
    Leads key (fun x => p x = true) l a := by
  obtain ⟨hp, before, after, hsplit, hbefore⟩ := List.find?_eq_some_iff_append.mp h
  have hsorted := pairwise_byKey key l
  rw [hsplit] at hsorted
  have hafter := (List.pairwise_cons.mp (List.pairwise_append.mp hsorted).2.1).1
  refine ⟨?_, hp, ?_⟩
  · rw [← mem_byKey key, hsplit]
    simp
  · intro b hb hpb
    rw [← mem_byKey key, hsplit, List.mem_append, List.mem_cons] at hb
    rcases hb with hb | rfl | hb
    · have hnot : (!p b) = true := hbefore b hb
      simp [hpb] at hnot
    · exact le_rfl
    · exact hafter b hb

/-- **The search finds the leader**, and nothing else. -/
theorem find_byKey_eq_some {l : List α} {p : α → Bool} {a : α}
    (hkey : ∀ x ∈ l, ∀ y ∈ l, key x = key y → x = y) :
    (byKey key l).find? p = some a ↔ Leads key (fun x => p x = true) l a := by
  constructor
  · exact leads_of_find key
  · intro ha
    cases hfound : (byKey key l).find? p with
    | none => exact absurd ha.2.1 ((find_byKey_eq_none key).mp hfound a ha.1)
    | some b =>
      have hb := leads_of_find key hfound
      have heq : key b = key a := le_antisymm (hb.2.2 a ha.1 ha.2.1) (ha.2.2 b hb.1 hb.2.1)
      rw [hkey b hb.1 a ha.1 heq]

/-- A leader for a wider test that passes the narrower one leads there too. -/
theorem Leads.narrow {p q : α → Prop} {l : List α} {a : α} (h : Leads key p l a)
    (hqp : ∀ b ∈ l, q b → p b) (ha : q a) : Leads key q l a :=
  ⟨h.1, ha, fun b hb hqb => h.2.2 b hb (hqp b hb hqb)⟩

/-- Where some element passes, one leads. -/
theorem exists_leads {l : List α} {p : α → Bool} (h : ∃ a ∈ l, p a = true) :
    ∃ a, Leads key (fun x => p x = true) l a := by
  cases hfound : (byKey key l).find? p with
  | none =>
    obtain ⟨a, ha, hp⟩ := h
    exact absurd hp ((find_byKey_eq_none key).mp hfound a ha)
  | some a => exact ⟨a, leads_of_find key hfound⟩

end Priority

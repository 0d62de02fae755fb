import Mathlib.Data.Nat.Init
import Mathlib.Logic.Relation
import Mathlib.Order.Basic
import Mathlib.Order.Defs.LinearOrder
import Mathlib.Data.Nat.Basic

/-!
# Union-find over the natural numbers

A forest of parent pointers that lead downwards, so that every root is the least element of its class.

* `Forest.root` — where the pointers lead;
* `Forest.find` — the root, with the path to it compressed;
* `find_fst`, `root_find` — finding returns the root, and compressing moves none;
* `Forest.Joins` — the classes are those of the equivalence a relation generates;
* `Joins.point` — pointing one root to another joins their classes, and no others.
-/

namespace UnionFind

/-- Parent pointers to smaller elements. -/
structure Forest where
  parent : ℕ → Option ℕ
  below : ∀ i j, parent i = some j → j < i

namespace Forest

/-- Every element is its own root. -/
def empty : Forest := ⟨fun _ => none, by simp⟩

/-- Point an element to a smaller one. -/
def point (f : Forest) (i r : ℕ) (h : r < i) : Forest where
  parent x := if x = i then some r else f.parent x
  below x j hx := by
    split at hx
    · rename_i heq
      cases hx
      exact heq ▸ h
    · exact f.below x j hx

/-- Follow so many pointers. -/
def rootWithin (f : Forest) : ℕ → ℕ → ℕ
  | 0, i => i
  | fuel + 1, i =>
    match f.parent i with
    | none => i
    | some j => f.rootWithin fuel j

/-- The end of the path; it has no more than `i` pointers. -/
def root (f : Forest) (i : ℕ) : ℕ := f.rootWithin i i

/-- Find the root, and let every element of the path point to it. -/
def findWithin : ℕ → (i : ℕ) → Forest → {r : ℕ // r ≤ i} × Forest
  | 0, i, f => (⟨i, le_refl i⟩, f)
  | fuel + 1, i, f =>
    match h : f.parent i with
    | none => (⟨i, le_refl i⟩, f)
    | some j =>
      let found := findWithin fuel j f
      let smaller := found.1.2.trans_lt (f.below i j h)
      (⟨found.1.1, smaller.le⟩, found.2.point i found.1.1 smaller)

def find (f : Forest) (i : ℕ) : ℕ × Forest :=
  let found := findWithin i i f
  (found.1.1, found.2)

variable (f : Forest)

/-! ### Roots -/

theorem rootWithin_eq_root (fuel : ℕ) : ∀ i, i ≤ fuel → f.rootWithin fuel i = f.root i := by
  suffices h : ∀ n i fuel fuel', i ≤ n → i ≤ fuel → i ≤ fuel' →
      f.rootWithin fuel i = f.rootWithin fuel' i from fun i hi => h i i fuel i le_rfl hi le_rfl
  intro n
  induction n with
  | zero =>
    intro i fuel fuel' hi _ _
    obtain rfl : i = 0 := by omega
    have hnone : f.parent 0 = none := by
      cases hparent : f.parent 0 with
      | none => rfl
      | some j => exact absurd (f.below 0 j hparent) (by omega)
    cases fuel <;> cases fuel' <;> simp [rootWithin, hnone]
  | succ n ih =>
    intro i fuel fuel' hi hfuel hfuel'
    cases hparent : f.parent i with
    | none => cases fuel <;> cases fuel' <;> simp [rootWithin, hparent]
    | some j =>
      have hj := f.below i j hparent
      obtain ⟨k, rfl⟩ := Nat.exists_eq_succ_of_ne_zero (show fuel ≠ 0 by omega)
      obtain ⟨k', rfl⟩ := Nat.exists_eq_succ_of_ne_zero (show fuel' ≠ 0 by omega)
      simp only [rootWithin, hparent]
      exact ih j k k' (by omega) (by omega) (by omega)

variable {f} {i j r : ℕ}

theorem root_of_none (h : f.parent i = none) : f.root i = i := by
  unfold root
  cases i <;> simp [rootWithin, h]

theorem root_of_some (h : f.parent i = some j) : f.root i = f.root j := by
  have hj := f.below i j h
  obtain ⟨k, rfl⟩ := Nat.exists_eq_succ_of_ne_zero (show i ≠ 0 by omega)
  show f.rootWithin (k + 1) (k + 1) = _
  simp only [rootWithin, h]
  exact f.rootWithin_eq_root k j (by omega)

/-- What holds of every root, and of an element with its parent, holds of every element. -/
theorem parent_induction {P : ℕ → Prop} (hroot : ∀ i, f.parent i = none → P i)
    (hstep : ∀ i j, f.parent i = some j → P j → P i) (i : ℕ) : P i := by
  induction i using Nat.strongRecOn with
  | _ i ih =>
    cases h : f.parent i with
    | none => exact hroot i h
    | some j => exact hstep i j h (ih j (f.below i j h))

theorem root_le (i : ℕ) : f.root i ≤ i := by
  induction i using f.parent_induction with
  | hroot i h => exact (root_of_none h).le
  | hstep i j h ih =>
    rw [root_of_some h]
    exact ih.trans (f.below i j h).le

theorem parent_root (i : ℕ) : f.parent (f.root i) = none := by
  induction i using f.parent_induction with
  | hroot i h => rwa [root_of_none h]
  | hstep i j h ih => rwa [root_of_some h]

@[simp] theorem root_root (i : ℕ) : f.root (f.root i) = f.root i := root_of_none (parent_root i)

theorem root_eq_self_iff : f.root i = i ↔ f.parent i = none := by
  refine ⟨fun h => ?_, root_of_none⟩
  rw [← h]
  exact parent_root i

@[simp] theorem root_empty (i : ℕ) : empty.root i = i := root_of_none rfl

/-- Pointing an element to its own root moves no root. -/
theorem root_point_self (h : f.root i < i) (x : ℕ) : (f.point i (f.root i) h).root x = f.root x := by
  have hother : ∀ y, y ≠ i → (f.point i (f.root i) h).parent y = f.parent y := fun y hy => if_neg hy
  have hfixed : (f.point i (f.root i) h).root (f.root i) = f.root i :=
    root_of_none ((hother _ h.ne).trans (parent_root i))
  have hi : (f.point i (f.root i) h).root i = f.root i := by
    rw [root_of_some (show (f.point i (f.root i) h).parent i = some (f.root i) from if_pos rfl), hfixed]
  induction x using f.parent_induction with
  | hroot x hx =>
    by_cases hxi : x = i
    · rw [hxi, hi]
    · rw [root_of_none hx, root_of_none ((hother x hxi).trans hx)]
  | hstep x y hx ih =>
    by_cases hxi : x = i
    · rw [hxi, hi]
    · rw [root_of_some hx, root_of_some ((hother x hxi).trans hx), ih]

/-- Pointing one root to another moves the roots of its class. -/
theorem root_point (hi : f.parent i = none) (hr : f.parent r = none) (h : r < i) (x : ℕ) :
    (f.point i r h).root x = if f.root x = i then r else f.root x := by
  have hother : ∀ y, y ≠ i → (f.point i r h).parent y = f.parent y := fun y hy => if_neg hy
  induction x using f.parent_induction with
  | hroot x hx =>
    rw [root_of_none hx]
    by_cases hxi : x = i
    · rw [if_pos hxi, hxi,
        root_of_some (show (f.point i r h).parent i = some r from if_pos rfl)]
      exact root_of_none ((hother r h.ne).trans hr)
    · rw [if_neg hxi]
      exact root_of_none ((hother x hxi).trans hx)
  | hstep x y hx ih =>
    have hxi : x ≠ i := by
      rintro rfl
      rw [hi] at hx
      cases hx
    rw [root_of_some hx, root_of_some ((hother x hxi).trans hx), ih]

/-! ### Finding -/

theorem findWithin_spec (fuel : ℕ) : ∀ i (f : Forest), i ≤ fuel →
    (findWithin fuel i f).1.1 = f.root i ∧ ∀ x, (findWithin fuel i f).2.root x = f.root x := by
  induction fuel with
  | zero =>
    intro i f hi
    obtain rfl : i = 0 := by omega
    exact ⟨(Nat.le_zero.mp (root_le 0)).symm, fun _ => rfl⟩
  | succ fuel ih =>
    intro i f hi
    unfold findWithin
    split
    · rename_i h
      exact ⟨(root_of_none h).symm, fun _ => rfl⟩
    · rename_i j h
      have hj := f.below i j h
      obtain ⟨hfound, hroots⟩ := ih j f (by omega)
      have hsame : (findWithin fuel j f).2.root i = (findWithin fuel j f).1.1 := by
        rw [hroots, hfound, root_of_some h]
      refine ⟨hfound.trans (root_of_some h).symm, fun x => ?_⟩
      rw [← hroots]
      have hlt : (findWithin fuel j f).2.root i < i := by
        rw [hsame]
        exact (findWithin fuel j f).1.2.trans_lt hj
      have hpoint := root_point_self hlt x
      simp only [hsame] at hpoint
      exact hpoint

@[simp] theorem find_fst (f : Forest) (i : ℕ) : (f.find i).1 = f.root i :=
  (findWithin_spec i i f le_rfl).1

@[simp] theorem root_find (f : Forest) (i x : ℕ) : (f.find i).2.root x = f.root x :=
  (findWithin_spec i i f le_rfl).2 x

/-! ### Classes -/

/-- Two elements have one root exactly when the relation connects them. -/
def Joins (f : Forest) (R : ℕ → ℕ → Prop) : Prop :=
  ∀ i j, f.root i = f.root j ↔ Relation.EqvGen R i j

section Classes

open Relation

variable {R S : ℕ → ℕ → Prop} {a b : ℕ}

/-- One relation generates no more than another. -/
theorem eqvGen_le (h : ∀ i j, R i j → EqvGen S i j) (hij : EqvGen R i j) : EqvGen S i j := by
  induction hij with
  | rel x y hxy => exact h x y hxy
  | refl x => exact .refl x
  | symm x y _ ih => exact ih.symm
  | trans x y z _ _ hxy hyz => exact hxy.trans _ _ _ hyz

theorem joins_empty : empty.Joins fun _ _ => False := by
  intro i j
  rw [root_empty, root_empty]
  constructor
  · rintro rfl
    exact .refl i
  · intro h
    induction h with
    | rel x y hxy => exact hxy.elim
    | refl x => rfl
    | symm x y _ ih => exact ih.symm
    | trans x y z _ _ hxy hyz => exact hxy.trans hyz

theorem Joins.congr (h : f.Joins R) (hRS : ∀ i j, R i j → EqvGen S i j)
    (hSR : ∀ i j, S i j → EqvGen R i j) : f.Joins S := fun i j =>
  (h i j).trans ⟨eqvGen_le hRS, eqvGen_le hSR⟩

theorem Joins.find (h : f.Joins R) (i : ℕ) : (f.find i).2.Joins R := by
  intro x y
  rw [root_find, root_find]
  exact h x y

/-- The relation with one more pair. -/
def Adds (R : ℕ → ℕ → Prop) (a b i j : ℕ) : Prop := R i j ∨ (i = a ∧ j = b)

theorem Joins.skip (h : f.Joins R) (hab : f.root a = f.root b) : f.Joins (Adds R a b) := by
  refine h.congr (fun i j hij => .rel _ _ (.inl hij)) ?_
  rintro i j (hij | ⟨rfl, rfl⟩)
  · exact .rel _ _ hij
  · exact (h i j).mp hab

/-- **Unions.** -/
theorem Joins.point (h : f.Joins R) (hi : f.parent i = none) (hr : f.parent r = none) (hlt : r < i)
    (hab : (f.root a = i ∧ f.root b = r) ∨ (f.root a = r ∧ f.root b = i)) :
    (f.point i r hlt).Joins (Adds R a b) := by
  have hold : ∀ {x y}, f.root x = f.root y → EqvGen (Adds R a b) x y := fun hxy =>
    eqvGen_le (fun x y hxy => .rel _ _ (.inl hxy)) ((h _ _).mp hxy)
  have hnew : EqvGen (Adds R a b) a b := .rel _ _ (.inr ⟨rfl, rfl⟩)
  have hir : EqvGen (Adds R a b) i r := by
    rcases hab with ⟨ha, hb⟩ | ⟨ha, hb⟩
    · have hia : f.root i = f.root a := (root_of_none hi).trans ha.symm
      have hbr : f.root b = f.root r := hb.trans (root_of_none hr).symm
      exact (hold hia).trans _ _ _ (hnew.trans _ _ _ (hold hbr))
    · have hib : f.root i = f.root b := (root_of_none hi).trans hb.symm
      have har : f.root a = f.root r := ha.trans (root_of_none hr).symm
      exact (hold hib).trans _ _ _ (hnew.symm.trans _ _ _ (hold har))
  have hto : ∀ x, EqvGen (Adds R a b) x ((f.point i r hlt).root x) := by
    intro x
    have hx : EqvGen (Adds R a b) x (f.root x) := hold (root_root x).symm
    rw [root_point hi hr hlt]
    split
    · rename_i heq
      exact (heq ▸ hx).trans _ _ _ hir
    · exact hx
  intro x y
  constructor
  · intro hxy
    exact (hto x).trans _ _ _ (hxy ▸ (hto y).symm)
  · intro hxy
    induction hxy with
    | rel x y hxy =>
      rw [root_point hi hr hlt, root_point hi hr hlt]
      rcases hxy with hxy | ⟨rfl, rfl⟩
      · rw [(h x y).mpr (.rel _ _ hxy)]
      · rcases hab with ⟨ha, hb⟩ | ⟨ha, hb⟩
        · rw [ha, hb, if_pos rfl, if_neg hlt.ne]
        · rw [ha, hb, if_neg hlt.ne, if_pos rfl]
    | refl x => rfl
    | symm x y _ ih => exact ih.symm
    | trans x y z _ _ hxy hyz => exact hxy.trans hyz

/-- The root of a class is its least element. -/
theorem Joins.least (h : f.Joins R) (hij : EqvGen R i j) : f.root i ≤ j :=
  ((h i j).mpr hij).trans_le (root_le j)

end Classes

end Forest

end UnionFind

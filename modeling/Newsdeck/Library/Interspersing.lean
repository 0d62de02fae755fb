import Mathlib.Data.List.Infix

/-!
# A unit strewn into a list

* `Interspersed` — the second list is the first with more of one unit in it;
* `Interspersed.infix` — a list without that unit which occurs afterwards occurred before.
-/

namespace Interspersing

variable {α : Type} {c : α} {x y z w : List α}

/-- The second list is the first, with the unit put in at some places. -/
inductive Interspersed (c : α) : List α → List α → Prop
  | nil : Interspersed c [] []
  | keep (d : α) {x y : List α} (rest : Interspersed c x y) : Interspersed c (d :: x) (d :: y)
  | more {x y : List α} (rest : Interspersed c x y) : Interspersed c x (c :: y)

theorem Interspersed.refl (x : List α) : Interspersed c x x := by
  induction x with
  | nil => exact .nil
  | cons d x ih => exact .keep d ih

theorem Interspersed.append {x' y' : List α} (h : Interspersed c x y) (h' : Interspersed c x' y') :
    Interspersed c (x ++ x') (y ++ y') := by
  induction h with
  | nil => exact h'
  | keep d _ ih => exact .keep d ih
  | more _ ih => exact .more ih

theorem Interspersed.trans (h : Interspersed c x y) (h' : Interspersed c y z) : Interspersed c x z := by
  induction h' generalizing x with
  | nil => exact h
  | keep d _ ih =>
    cases h with
    | keep _ rest => exact .keep d (ih rest)
    | more rest => exact .more (ih rest)
  | more _ ih => exact .more (ih h)

theorem Interspersed.start (h : Interspersed c x y) (hc : c ∉ w) (hw : w <+: y) : w <+: x := by
  induction h generalizing w with
  | nil => exact hw
  | keep d _ ih =>
    cases w with
    | nil => exact List.nil_prefix
    | cons e w =>
      obtain ⟨rfl, hrest⟩ := List.cons_prefix_cons.mp hw
      exact List.cons_prefix_cons.mpr ⟨rfl, ih (fun hmem => hc (List.mem_cons_of_mem _ hmem)) hrest⟩
  | more _ _ =>
    cases w with
    | nil => exact List.nil_prefix
    | cons e w =>
      obtain ⟨rfl, -⟩ := List.cons_prefix_cons.mp hw
      exact absurd List.mem_cons_self hc

/-- **No occurrence is put together.** -/
theorem Interspersed.within (h : Interspersed c x y) (hc : c ∉ w) (hw : w <:+: y) : w <:+: x := by
  induction h with
  | nil => exact hw
  | keep d rest ih =>
    rcases List.infix_cons_iff.mp hw with hw | hw
    · exact ((Interspersed.keep d rest).start hc hw).isInfix
    · exact List.infix_cons (ih hw)
  | more rest ih =>
    rcases List.infix_cons_iff.mp hw with hw | hw
    · exact ((Interspersed.more rest).start hc hw).isInfix
    · exact ih hw

end Interspersing

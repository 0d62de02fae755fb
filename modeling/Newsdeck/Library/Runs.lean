import Mathlib.Data.List.Count
import Mathlib.Order.Defs.PartialOrder

/-!
# Runs of a machine with outputs

A machine reads an input, emits an output and moves to the next state.  This file has the
rules by which a fact about one step becomes a fact about every run:

* `invariant` — what each step keeps holds at the end of every run;
* `invariant_along_iff` — what a step keeps exactly under a condition holds all along a run exactly
  when each step meets the condition;
* `monotone_final` — a quantity no step lowers never falls along a run;
* `counter_final` — a counter that grows by one with certain outputs, and only with them, counts
  these outputs.
-/

namespace Machine

variable {σ ι ω : Type}

/-- The state a run ends in. -/
def final (step : σ → ι → ω × σ) : σ → List ι → σ
  | s, [] => s
  | s, i :: is => final step (step s i).2 is

/-- The outputs a run emits, in order. -/
def outputs (step : σ → ι → ω × σ) : σ → List ι → List ω
  | _, [] => []
  | s, i :: is => (step s i).1 :: outputs step (step s i).2 is

variable (step : σ → ι → ω × σ)

@[simp] theorem final_nil (s : σ) : final step s [] = s := rfl

@[simp] theorem final_cons (s : σ) (i : ι) (is : List ι) :
    final step s (i :: is) = final step (step s i).2 is := rfl

@[simp] theorem outputs_nil (s : σ) : outputs step s [] = [] := rfl

@[simp] theorem outputs_cons (s : σ) (i : ι) (is : List ι) :
    outputs step s (i :: is) = (step s i).1 :: outputs step (step s i).2 is := rfl

theorem final_append (s : σ) (is js : List ι) :
    final step s (is ++ js) = final step (final step s is) js := by
  induction is generalizing s with
  | nil => rfl
  | cons i is ih => exact ih (step s i).2

/-- **Invariants.**  The inputs of the run may be restricted. -/
theorem invariant (inv : σ → Prop) (allowed : ι → Prop)
    (hstep : ∀ s i, inv s → allowed i → inv (step s i).2) (is : List ι) :
    ∀ s, inv s → (∀ i ∈ is, allowed i) → inv (final step s is) := by
  induction is with
  | nil => intro s hs _; exact hs
  | cons i is ih =>
    intro s hs hall
    exact ih _ (hstep s i hs (hall i (by simp))) fun j hj => hall j (by simp [hj])

/-- Each step of the run meets a condition on its input and on the state it is taken from. -/
def Along (cond : σ → ι → Prop) : σ → List ι → Prop
  | _, [] => True
  | s, i :: is => cond s i ∧ Along cond (step s i).2 is

/-- **Conditional invariants.** -/
theorem invariant_along_iff (inv : σ → Prop) (cond : σ → ι → Prop)
    (hstep : ∀ s i, inv s → (inv (step s i).2 ↔ cond s i)) (is : List ι) :
    ∀ s, (∀ before, before <+: is → inv (final step s before)) ↔ inv s ∧ Along step cond s is := by
  induction is with
  | nil =>
    intro s
    constructor
    · intro h
      exact ⟨h [] (List.nil_prefix), trivial⟩
    · rintro ⟨hs, -⟩ before hbefore
      rw [List.prefix_nil.mp hbefore]
      exact hs
  | cons i is ih =>
    intro s
    constructor
    · intro h
      have hs : inv s := h [] List.nil_prefix
      have hrest := (ih (step s i).2).mp fun before hbefore =>
        h (i :: before) (List.cons_prefix_cons.mpr ⟨rfl, hbefore⟩)
      exact ⟨hs, (hstep s i hs).mp hrest.1, hrest.2⟩
    · rintro ⟨hs, hcond, hrest⟩ before hbefore
      cases before with
      | nil => exact hs
      | cons j before =>
        obtain ⟨rfl, hrun⟩ := List.cons_prefix_cons.mp hbefore
        exact (ih _).mpr ⟨(hstep s j hs).mpr hcond, hrest⟩ before hrun

/-- **Monotone quantities.** -/
theorem monotone_final {α : Type} [Preorder α] (f : σ → α) (hstep : ∀ s i, f s ≤ f (step s i).2)
    (s : σ) (is : List ι) : f s ≤ f (final step s is) := by
  induction is generalizing s with
  | nil => exact le_refl _
  | cons i is ih => exact le_trans (hstep s i) (ih _)

/-- **Counters.** -/
theorem counter_final (f : σ → ℕ) (fires : ω → Bool)
    (hstep : ∀ s i, f (step s i).2 = f s + if fires (step s i).1 then 1 else 0)
    (s : σ) (is : List ι) :
    f (final step s is) = f s + (outputs step s is).countP fires := by
  induction is generalizing s with
  | nil => simp
  | cons i is ih =>
    rw [final_cons, ih, hstep, outputs_cons, List.countP_cons]
    omega

end Machine

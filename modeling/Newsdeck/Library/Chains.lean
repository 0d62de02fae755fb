import Mathlib.Data.Finite.Prod
import Mathlib.Logic.Relation
import Mathlib.Order.WellFounded

/-!
# Chains that come to an end

* `Acyclic` — no step is left that leads back to where it started;
* `acyclic_of_acc`, `acc_of_acyclic` — in a finite type, every chain of steps from an element comes to an
  end exactly where none comes back.
-/

namespace Chains

open Relation

variable {α : Type} {step : α → α → Prop} {a : α}

/-- What a chain from the element has left it does not come back to. -/
def Acyclic (step : α → α → Prop) (a : α) : Prop :=
  ∀ b c, ReflTransGen step a b → step b c → ¬ ReflTransGen step c b

theorem acyclic_of_acc (h : Acc (flip step) a) : Acyclic step a := by
  induction h with
  | intro a _ ih =>
    intro b c hreach hstep hback
    rcases hreach.cases_head with rfl | ⟨first, hfirst, hrest⟩
    · exact ih c hstep _ c hback hstep hback
    · exact ih first hfirst b c hrest hstep hback

theorem acc_of_acyclic [Finite α] (h : Acyclic step a) : Acc (flip step) a := by
  let after : {b // ReflTransGen step a b} → {b // ReflTransGen step a b} → Prop :=
    fun x y => TransGen step y.1 x.1
  have htrans : IsTrans _ after := ⟨fun _ _ _ hxy hyz => hyz.trans hxy⟩
  have hirrefl : Std.Irrefl after := ⟨fun x hcycle => by
    obtain ⟨c, hstep, hback⟩ := TransGen.head'_iff.mp hcycle
    exact h x.1 c x.2 hstep hback⟩
  have hwf : WellFounded after := Finite.wellFounded_of_trans_of_irrefl after
  have hall (x : {b // ReflTransGen step a b}) : Acc (flip step) x.1 := by
    induction x using hwf.induction with
    | _ x ih => exact .intro _ fun b hstep => ih ⟨b, x.2.tail hstep⟩ (.single hstep)
  exact hall ⟨a, .refl⟩

end Chains

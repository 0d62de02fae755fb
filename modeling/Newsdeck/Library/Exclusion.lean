import Mathlib.Order.Defs.PartialOrder
import Newsdeck.Library.Interleaving

/-!
# Programs that do not overlap

The programs of a group run one at a time: between two events of one of them, no other one of its
group does anything.

* `Serial` — one at a time, in every group;
* `serial_of_turns` — so it is with programs that take turns;
* `Serial.later` — what a program does before an event of its own, it does after the others are
  through;
* `countP_le_of_separated` — where something lies between any two occurrences of a thing, the thing
  occurs no more often than that, but for once;
* `Serial.countP_le` — so it is with what each program of a group does once, and only after
  something else.
-/

namespace Effects

/-! ### Between two occurrences -/

section Separated

variable {α : Type} {p q : α → Bool}

/-- Between any two occurrences of `p` there is one of `q`. -/
def Separated (p q : α → Bool) (xs : List α) : Prop :=
  ∀ front x middle y back, xs = front ++ x :: (middle ++ y :: back) → p x = true → p y = true →
    ∃ z ∈ middle, q z = true

/-- In front of every occurrence of `p` there is one of `q`. -/
def Led (p q : α → Bool) (xs : List α) : Prop :=
  ∀ front x back, xs = front ++ x :: back → p x = true → ∃ z ∈ front, q z = true

theorem Separated.tail {x : α} {xs : List α} (h : Separated p q (x :: xs)) : Separated p q xs :=
  fun front y middle z back hxs => h (x :: front) y middle z back (by rw [hxs]; rfl)

theorem countP_le_of_separated {xs : List α} (h : Separated p q xs) :
    xs.countP p ≤ xs.countP q + 1 ∧ (Led p q xs → xs.countP p ≤ xs.countP q) := by
  induction xs with
  | nil => simp
  | cons x xs ih =>
    obtain ⟨hany, hled⟩ := ih h.tail
    rw [List.countP_cons, List.countP_cons]
    constructor
    · by_cases hx : p x = true
      · -- after an occurrence, the rest is led
        have hrest : Led p q xs := fun front y back hxs hy =>
          h [] x front y back (by rw [hxs]; rfl) hx hy
        have hle := hled hrest
        rw [if_pos hx]
        omega
      · rw [if_neg hx]
        omega
    · intro hlead
      have hx : ¬ p x = true := by
        intro hx
        obtain ⟨z, hz, -⟩ := hlead [] x xs rfl hx
        exact List.not_mem_nil hz
      rw [if_neg hx]
      by_cases hq : q x = true
      · rw [if_pos hq]
        omega
      · have hrest : Led p q xs := by
          intro front y back hxs hy
          obtain ⟨z, hz, hqz⟩ := hlead (x :: front) y back (by rw [hxs]; rfl) hy
          rcases List.mem_cons.mp hz with rfl | hz
          · exact absurd hqz hq
          · exact ⟨z, hz, hqz⟩
        have hle := hled hrest
        omega

end Separated

/-! ### One at a time -/

variable {Op : Type} {Ans : Op → Type} {ι γ σ : Type}

/-- Between two events of a program, no other program of its group does anything. -/
def Serial (group : ι → Option γ) (trace : List (Tagged ι Op Ans)) : Prop :=
  ∀ front first middle last back, trace = front ++ first :: (middle ++ last :: back) →
    first.op.1 = last.op.1 → ∀ event ∈ middle, (group event.op.1).isSome = true →
      group event.op.1 = group first.op.1 → event.op.1 = first.op.1

/-- Programs that take their turns one after the other. -/
theorem serial_of_turns [PartialOrder ι] {group : ι → Option γ} {trace : List (Tagged ι Op Ans)}
    (h : (trace.map fun event => event.op.1).Pairwise (· ≤ ·)) : Serial group trace := by
  rintro front first middle last back rfl hsame event hevent - -
  rw [List.map_append, List.map_cons, List.map_append, List.map_cons, List.pairwise_append] at h
  obtain ⟨hfirst, hrest⟩ := List.pairwise_cons.mp h.2.1
  have hmem : event.op.1 ∈ middle.map fun event => event.op.1 := List.mem_map_of_mem hevent
  have hlast : event.op.1 ≤ last.op.1 :=
    (List.pairwise_append.mp hrest).2.2 _ hmem _ List.mem_cons_self
  rw [← hsame] at hlast
  exact le_antisymm hlast (hfirst _ (List.mem_append_left _ hmem))

/-- Once a program of the group has done something, another one that does something later begins
only then. -/
theorem Serial.later {group : ι → Option γ} {front middle back : List (Tagged ι Op Ans)}
    {first last event : Tagged ι Op Ans}
    (h : Serial group (front ++ first :: (middle ++ last :: back)))
    (hgroup : group first.op.1 = group last.op.1)
    (hsome : (group first.op.1).isSome = true) (hother : first.op.1 ≠ last.op.1)
    (hevent : event ∈ front ++ first :: middle) (hown : event.op.1 = last.op.1) :
      event ∈ middle := by
  rcases List.mem_append.mp hevent with hfront | hrest
  · obtain ⟨before, after, rfl⟩ := List.append_of_mem hfront
    have hsplit : (before ++ event :: after) ++ first :: (middle ++ last :: back) =
        before ++ event :: ((after ++ first :: middle) ++ last :: back) := by simp
    have hsame := h before event (after ++ first :: middle) last back hsplit hown first
      (by simp) hsome
      (by rw [hown, hgroup])
    exact absurd (hsame.trans hown) hother
  · rcases List.mem_cons.mp hrest with rfl | hmiddle
    · exact absurd hown hother
    · exact hmiddle

/-- **What each program of a group does once, and only after something else**, is done no more often
than that. -/
theorem Serial.countP_le {group : ι → Option γ} {g : γ} {trace : List (Tagged ι Op Ans)}
    {p q : Tagged ι Op Ans → Bool} (h : Serial group trace)
    (hp : ∀ front x back, trace = front ++ x :: back → p x = true → group x.op.1 = some g ∧
      (∀ event ∈ front, event.op.1 = x.op.1 → p event = false) ∧
        ∃ event ∈ front, event.op.1 = x.op.1 ∧ q event = true) : trace.countP p ≤
          trace.countP q := by
  have hled : Led p q trace := by
    intro front x back htrace hx
    obtain ⟨-, -, event, hevent, -, hq⟩ := hp front x back htrace hx
    exact ⟨event, hevent, hq⟩
  have hseparated : Separated p q trace := by
    intro front x middle y back htrace hx hy
    have hlonger : trace = (front ++ x :: middle) ++ y :: back := by rw [htrace]; simp
    obtain ⟨hgroup, -⟩ := hp front x _ htrace hx
    obtain ⟨hgroup', honce, event, hevent, howner, hq⟩ := hp _ y back hlonger hy
    have hother : x.op.1 ≠ y.op.1 := by
      intro hsame
      rw [honce x (by simp) hsame] at hx
      cases hx
    subst htrace
    exact ⟨event, h.later (hgroup.trans hgroup'.symm)
      (by rw [hgroup]; rfl) hother hevent howner, hq⟩
  exact (countP_le_of_separated hseparated).2 hled

end Effects

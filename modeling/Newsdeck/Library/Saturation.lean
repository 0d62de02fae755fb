import Mathlib.Data.Set.Insert
import Newsdeck.Library.Refinement

/-!
# Taking what is ready until nothing is

Elements wait for others.  An element that may be taken is ready once all it waits for has been
taken; what is ready is taken, or dropped for good; and at any time an element may be handed over,
ready or not.

* `Reached` — what is taken in the end, said without any order;
* `Step` — one move, and `Effects.Path` for a run of them;
* `taken_eq_reached` — **however the moves are ordered, a run after which nothing is ready has taken
  what is reached**;
* `took_once` — no element is taken or dropped twice;
* `not_reached_of_trapped` — elements that wait for one another are not reached.
-/

namespace Saturation

open Effects

variable {α : Type}

/-- Given, or one that may be taken and waits for nothing but what is reached. -/
inductive Reached (may : α → Prop) (waits : α → α → Prop) (given : Set α) : α → Prop
  | given {a : α} (h : a ∈ given) : Reached may waits given a
  | ready {a : α} (hmay : may a) (h : ∀ b, waits a b → Reached may waits given b) :
      Reached may waits given a

structure State (α : Type) where
  taken : Set α
  dropped : Set α

inductive Move (α : Type) where
  | take (a : α)
  | drop (a : α)
  | hand (a : α)
  deriving DecidableEq, Repr

def taking (moves : List (Move α)) : Set α := {a | .take a ∈ moves}
def dropping (moves : List (Move α)) : Set α := {a | .drop a ∈ moves}
def handing (moves : List (Move α)) : Set α := {a | .hand a ∈ moves}

variable {may may' : α → Prop} {waits : α → α → Prop} {given given' : Set α} {a : α}

theorem Reached.mono (h : Reached may waits given a) (hmay : ∀ b, may b → may' b)
    (hgiven : given ⊆ given') :
    Reached may' waits given' a := by
  induction h with
  | given h => exact .given (hgiven h)
  | ready hready _ ih => exact .ready (hmay _ hready) ih

/-- Elements that are not given, each of them waiting for one of them if it may be taken at all. -/
theorem not_reached_of_trapped {trapped : Set α} (hgiven : ∀ b ∈ trapped, b ∉ given)
    (hwaits : ∀ b ∈ trapped, may b → ∃ c ∈ trapped, waits b c) (h : Reached may waits given a) :
    a ∉ trapped := by
  induction h with
  | given h => exact fun ha => hgiven _ ha h
  | ready hmay _ ih =>
    intro ha
    obtain ⟨c, hc, hwait⟩ := hwaits _ ha hmay
    exact ih c hwait hc

variable (may waits)

/-- The element is ready, and still there. -/
structure Ready (s : State α) (a : α) : Prop where
  may : may a
  left : a ∉ s.taken
  kept : a ∉ s.dropped
  waited : ∀ b, waits a b → b ∈ s.taken

inductive Step : State α → Move α → State α → Prop
  | take {s : State α} {a : α} (h : Ready may waits s a) :
      Step s (.take a) ⟨insert a s.taken, s.dropped⟩
  | drop {s : State α} {a : α} (h : Ready may waits s a) :
      Step s (.drop a) ⟨s.taken, insert a s.dropped⟩
  | hand {s : State α} (a : α) : Step s (.hand a) ⟨insert a s.taken, s.dropped⟩

variable {may waits} {taken : Set α} {moves : List (Move α)} {s : State α}

/-- A run from nothing but what is taken already. -/
abbrev Runs (may : α → Prop) (waits : α → α → Prop) (taken : Set α) (moves : List (Move α))
    (s : State α) :
    Prop :=
  Path (Step may waits) ⟨taken, ∅⟩ moves s

/-! ### What a run has done -/

theorem runs_taken (h : Runs may waits taken moves s) :
    s.taken = taken ∪ taking moves ∪ handing moves := by
  induction h with
  | nil => simp [taking, handing]
  | snoc _ last ih =>
    ext b
    cases last <;> simp only [taking, handing, ih] <;> grind

theorem runs_dropped (h : Runs may waits taken moves s) : s.dropped = dropping moves := by
  induction h with
  | nil => simp [dropping]
  | snoc _ last ih =>
    ext b
    cases last <;> simp only [dropping, ih] <;> grind

theorem taken_subset (h : Runs may waits taken moves s) : taken ∪ handing moves ⊆ s.taken := by
  rw [runs_taken h]
  intro b hb
  exact hb.elim (fun hb => .inl (.inl hb)) .inr

/-- What was taken was not dropped. -/
theorem taking_kept (h : Runs may waits taken moves s) :
    ∀ b ∈ taking moves, b ∉ dropping moves := by
  induction h with
  | nil => simp [taking]
  | @snoc log _ _ m before last ih =>
    intro b htake hdrop
    rcases List.mem_append.mp htake with hearlier | hnow
    · rcases List.mem_append.mp hdrop with hdropped | hdropping
      · exact ih b hearlier hdropped
      · obtain rfl := List.mem_singleton.mp hdropping
        cases last with
        | drop hready => exact hready.left (by rw [runs_taken before]; exact .inl (.inr hearlier))
    · obtain rfl := List.mem_singleton.mp hnow
      have hdropped : b ∈ dropping log := by simpa [dropping] using hdrop
      cases last with
      | take hready => exact hready.kept (by rw [runs_dropped before]; exact hdropped)

/-- The element a move takes or drops. -/
def settled : Move α → Option α
  | .take a => some a
  | .drop a => some a
  | .hand _ => none

/-- **No element is taken or dropped twice.** -/
theorem took_once (h : Runs may waits taken moves s) :
    (moves.filterMap settled).Nodup ∧ ∀ b ∈ moves.filterMap settled, may b ∧ b ∉ taken := by
  induction h with
  | nil => simp
  | @snoc log _ _ m before last ih =>
    have hready : ∀ b ∈ settled m, may b ∧ b ∉ taken ∧ b ∉ log.filterMap settled := by
      intro b hb
      have hnot : ∀ {t : State α}, Runs may waits taken log t → Ready may waits t b →
          may b ∧ b ∉ taken ∧ b ∉ log.filterMap settled := by
        intro t ht hready
        refine ⟨hready.may, fun hmem => hready.left (taken_subset ht (.inl hmem)), fun hmem => ?_⟩
        obtain ⟨m, hm, hsettled⟩ := List.mem_filterMap.mp hmem
        cases m with
        | take c =>
          cases hsettled
          exact hready.left (by rw [runs_taken ht]; exact .inl (.inr hm))
        | drop c =>
          cases hsettled
          exact hready.kept (by rw [runs_dropped ht]; exact hm)
        | hand c => cases hsettled
      cases last with
      | take h => cases hb; exact hnot before h
      | drop h => cases hb; exact hnot before h
      | hand => cases hb
    rw [List.filterMap_append]
    cases hsettled : settled m with
    | none =>
      have hnone : [m].filterMap settled = [] := by simp [hsettled]
      rwa [hnone, List.append_nil]
    | some b =>
      obtain ⟨hmay, hnew, hfresh⟩ := hready b hsettled
      have hsingle : [m].filterMap settled = [b] := by simp [hsettled]
      rw [hsingle]
      refine ⟨List.nodup_append.mpr ⟨ih.1, by simp, ?_⟩, ?_⟩
      · rintro c hc d hd rfl
        rw [List.mem_singleton] at hd
        exact hfresh (hd ▸ hc)
      · intro c hc
        rcases List.mem_append.mp hc with hc | hc
        · exact ih.2 c hc
        · rw [List.mem_singleton] at hc
          exact hc ▸ ⟨hmay, hnew⟩

/-- What a settled element waited for has been taken. -/
theorem waited_of_settled (h : Runs may waits taken moves s) :
    ∀ b ∈ moves.filterMap settled, ∀ c, waits b c → c ∈ s.taken := by
  induction h with
  | nil => simp
  | @snoc log s t m _ last ih =>
    intro b hb c hwait
    have hgrows : s.taken ⊆ t.taken := by
      cases last with
      | take => exact Set.subset_insert _ _
      | drop => exact Set.Subset.refl _
      | hand => exact Set.subset_insert _ _
    rw [List.filterMap_append] at hb
    rcases List.mem_append.mp hb with hb | hb
    · exact hgrows (ih b hb c hwait)
    · obtain ⟨m', hm', hsettled⟩ := List.mem_filterMap.mp hb
      obtain rfl := List.mem_singleton.mp hm'
      cases last with
      | take hready =>
        cases hsettled
        exact hgrows (hready.waited c hwait)
      | drop hready =>
        cases hsettled
        exact hready.waited c hwait
      | hand => cases hsettled

/-! ### What it comes to -/

/-- Each of what was taken is reached by way of what was taken. -/
theorem reached_of_taken (h : Runs may waits taken moves s) :
    ∀ b ∈ s.taken, Reached (fun c => may c ∧ c ∈ taking moves) waits (taken ∪ handing moves) b := by
  induction h with
  | nil => exact fun b hb => .given (.inl hb)
  | @snoc log _ _ m before last ih =>
    have hmore : ∀ b, Reached (fun c => may c ∧ c ∈ taking log) waits (taken ∪ handing log) b →
        Reached (fun c => may c ∧ c ∈ taking (log ++ [m])) waits
          (taken ∪ handing (log ++ [m])) b := by
      refine fun b hb => hb.mono (fun c hc => ⟨hc.1, List.mem_append_left _ hc.2⟩) ?_
      exact Set.union_subset_union_right _ fun c hc => List.mem_append_left _ hc
    intro b hb
    cases last with
    | take hready =>
      rcases hb with rfl | hb
      · exact .ready ⟨hready.may, by simp [taking]⟩ fun c hc => hmore c (ih c (hready.waited c hc))
      · exact hmore b (ih b hb)
    | drop => exact hmore b (ih b hb)
    | hand =>
      rcases hb with rfl | hb
      · exact .given (.inr (by simp [handing]))
      · exact hmore b (ih b hb)

/-- **The end.**  When nothing is ready any more, what is taken is what is reached from what was
given, without what was dropped, whatever the order. -/
theorem taken_eq_reached (h : Runs may waits taken moves s) (hend : ∀ b, ¬ Ready may waits s b)
    (b : α) :
    b ∈ s.taken ↔
      Reached (fun c => may c ∧ c ∉ dropping moves) waits (taken ∪ handing moves) b := by
  constructor
  · intro hb
    exact (reached_of_taken h b hb).mono (fun c hc => ⟨hc.1, taking_kept h c hc.2⟩)
      (Set.Subset.refl _)
  · intro hb
    induction hb with
    | given hgiven => exact taken_subset h hgiven
    | @ready c hmay _ ih =>
      by_contra hleft
      exact hend c ⟨hmay.1, hleft, by rw [runs_dropped h]; exact hmay.2, ih⟩

end Saturation

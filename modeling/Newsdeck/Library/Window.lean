import Mathlib.Data.List.Basic
import Mathlib.Order.Nat

/-!
# Rolling windows

Times at which something happened, of which only those inside a window that moves forward count.

* `since` — how many of the times are not before a cutoff;
* `prune` — the times without those at the front that are before a cutoff: later cutoffs see no
  difference (`since_prune`);
* `Covers` — a record that shows at least as much, for every cutoff from a point on: each time may be
  recorded late (`Covers.append`), and the record may be pruned (`Covers.prune`);
* `Agrees` — a record that shows the same for every cutoff from a point on: it may be pruned
  (`Agrees.prune`).
-/

namespace Window

def since (times : List ℕ) (cutoff : ℕ) : ℕ := (times.filter fun at_ => cutoff ≤ at_).length

/-- The times without those that are before the cutoff, as far as they stand at the front. -/
def prune (times : List ℕ) (cutoff : ℕ) : List ℕ := times.dropWhile fun at_ => at_ < cutoff

theorem since_prune {cutoff later : ℕ} (h : cutoff ≤ later) (times : List ℕ) :
    since (prune times cutoff) later = since times later := by
  induction times with
  | nil => rfl
  | cons at_ times ih =>
    by_cases hold : at_ < cutoff
    · have hdrop : prune (at_ :: times) cutoff = prune times cutoff := by simp [prune, hold]
      have hskip : since (at_ :: times) later = since times later := by
        have hlater : ¬ later ≤ at_ := by omega
        simp [since, hlater]
      rw [hdrop, hskip, ih]
    · have hkeep : prune (at_ :: times) cutoff = at_ :: times := by simp [prune, hold]
      rw [hkeep]

theorem since_append (times : List ℕ) (at_ cutoff : ℕ) :
    since (times ++ [at_]) cutoff = since times cutoff + if cutoff ≤ at_ then 1 else 0 := by
  by_cases h : cutoff ≤ at_
  · simp [since, h]
  · simp [since, h]

/-- For every cutoff from `start` on, the record shows at least as many times. -/
def Covers (record times : List ℕ) (start : ℕ) : Prop :=
  ∀ cutoff, start ≤ cutoff → since times cutoff ≤ since record cutoff

variable {record times : List ℕ} {start : ℕ}

theorem Covers.append (h : Covers record times start) {at_ recorded : ℕ} (hle : at_ ≤ recorded) :
    Covers (record ++ [recorded]) (times ++ [at_]) start := by
  intro cutoff hcutoff
  rw [since_append, since_append]
  have hsince := h cutoff hcutoff
  by_cases hat : cutoff ≤ at_
  · rw [if_pos hat, if_pos (hat.trans hle)]
    omega
  · rw [if_neg hat]
    omega

theorem Covers.recorded (h : Covers record times start) (at_ : ℕ) :
    Covers (record ++ [at_]) times start := by
  intro cutoff hcutoff
  rw [since_append]
  exact (h cutoff hcutoff).trans (Nat.le_add_right _ _)

theorem Covers.later (h : Covers record times start) {start' : ℕ} (hle : start ≤ start') :
    Covers record times start' :=
  fun cutoff hcutoff => h cutoff (hle.trans hcutoff)

theorem Covers.prune (h : Covers record times start) {cutoff : ℕ} (hle : cutoff ≤ start) :
    Covers (prune record cutoff) times start := by
  intro later hlater
  rw [since_prune (hle.trans hlater)]
  exact h later hlater

/-- For every cutoff from `start` on, the record shows as many times. -/
def Agrees (record times : List ℕ) (start : ℕ) : Prop :=
  ∀ cutoff, start ≤ cutoff → since record cutoff = since times cutoff

theorem Agrees.append (h : Agrees record times start) (at_ : ℕ) :
    Agrees (record ++ [at_]) (times ++ [at_]) start := by
  intro cutoff hcutoff
  rw [since_append, since_append, h cutoff hcutoff]

theorem Agrees.later (h : Agrees record times start) {start' : ℕ} (hle : start ≤ start') :
    Agrees record times start' :=
  fun cutoff hcutoff => h cutoff (hle.trans hcutoff)

theorem Agrees.prune (h : Agrees record times start) {cutoff : ℕ} (hle : cutoff ≤ start) :
    Agrees (prune record cutoff) times start := by
  intro later hlater
  rw [since_prune (hle.trans hlater)]
  exact h later hlater

end Window

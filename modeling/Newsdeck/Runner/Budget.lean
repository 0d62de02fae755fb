import Newsdeck.Library.Window
import Newsdeck.Runner.Operations

/-!
# The operational budget

Invocations and issues are counted by event, over rolling windows; every limit is off at zero.  Each call
reads the clock as often as the code does: `clock n` is what the reading after `n` others shows.

* `TimedBudget` — the budget and the number of readings so far;
* `TimedBudget.exceeded_eq` — the three limits, each at its reading of the clock;
* `Budget.check` — a check while the clock stands still;
* `check_eq_none_iff` — it passes exactly when every limit that is on has room;
* `check_counting` — it passes for every list of issues that the recorded ones cover.
-/

namespace Newsdeck.Runner

open Ecma Window

/-- The limits of the configuration that the budget reads. -/
structure BudgetLimits where
  maxModelInvocationsPerHour : ℕ
  maxIssuesPerDay : ℕ
  maxRuntimeHours : ℕ
  deriving DecidableEq, Repr

def hourMs : ℕ := 60 * 60 * 1000

def dayMs : ℕ := 24 * 60 * 60 * 1000

structure Budget where
  limits : BudgetLimits
  startedAt : ℕ
  invocations : List ℕ
  issues : List ℕ
  deriving DecidableEq, Repr

def newBudget (limits : BudgetLimits) (now : ℕ) : Budget := ⟨limits, now, [], []⟩

namespace Budget

/-- Record one model invocation. -/
def recordInvocation (budget : Budget) (now : ℕ) : Budget :=
  { budget with invocations := budget.invocations ++ [now] }

/-- Record one issue claimed. -/
def recordIssue (budget : Budget) (now : ℕ) : Budget :=
  { budget with issues := budget.issues ++ [now] }

def within (timestamps : List ℕ) (now windowMs : ℕ) : ℕ := since timestamps (now - windowMs)

end Budget

/-! ### What a limit that is reached says -/

/-- `Math.round(elapsed / 3_600_000)`. -/
def roundHours (elapsed : ℕ) : ℕ := (elapsed + hourMs / 2) / hourMs

def invocationsReached (used perHour : ℕ) : BudgetExceeded :=
  ⟨.invocations, decimal used ++ lit " model invocations in the last hour, at the limit of " ++
    decimal perHour ++ lit ". Raise LOOP_MAX_MODEL_INVOCATIONS_PER_HOUR to continue."⟩

def issuesReached (used perDay : ℕ) : BudgetExceeded :=
  ⟨.issues, decimal used ++ lit " issues claimed in the last 24 hours, at the limit of " ++
    decimal perDay ++ lit ". Raise LOOP_MAX_ISSUES_PER_DAY to continue."⟩

def runtimeReached (elapsed maxHours : ℕ) : BudgetExceeded :=
  ⟨.runtime, lit "this session has run for " ++ decimal (roundHours elapsed) ++
    lit " hours, at the limit of " ++ decimal maxHours ++
    lit ". Restart it, or raise LOOP_MAX_RUNTIME_HOURS."⟩

/-! ### The budget under a clock -/

/-- A budget, and how often it has read the clock. -/
structure TimedBudget where
  budget : Budget
  reads : ℕ
  deriving DecidableEq, Repr

namespace TimedBudget

variable (clock : ℕ → ℕ)

/-- `new Budget(config, now)`. -/
def new (limits : BudgetLimits) : TimedBudget := ⟨newBudget limits (clock 0), 1⟩

def recordInvocation (timed : TimedBudget) : TimedBudget :=
  ⟨timed.budget.recordInvocation (clock timed.reads), timed.reads + 1⟩

def recordIssue (timed : TimedBudget) : TimedBudget :=
  ⟨timed.budget.recordIssue (clock timed.reads), timed.reads + 1⟩

/-- The day is read before the hour. -/
def prune (timed : TimedBudget) : TimedBudget :=
  let day := clock timed.reads - dayMs
  let hour := clock (timed.reads + 1) - hourMs
  ⟨{ timed.budget with
      invocations := Window.prune timed.budget.invocations hour
      issues := Window.prune timed.budget.issues day }, timed.reads + 2⟩

/-- The limit of invocations in an hour; where it is off the clock is not read. -/
def checkInvocations (timed : TimedBudget) : Option BudgetExceeded × TimedBudget :=
  let perHour := timed.budget.limits.maxModelInvocationsPerHour
  if perHour > 0 then
    let used := Budget.within timed.budget.invocations (clock timed.reads) hourMs
    (if used ≥ perHour then some (invocationsReached used perHour) else none,
      { timed with reads := timed.reads + 1 })
  else (none, timed)

/-- The limit of issues in a day. -/
def checkIssues (timed : TimedBudget) : Option BudgetExceeded × TimedBudget :=
  let perDay := timed.budget.limits.maxIssuesPerDay
  if perDay > 0 then
    let used := Budget.within timed.budget.issues (clock timed.reads) dayMs
    (if used ≥ perDay then some (issuesReached used perDay) else none,
      { timed with reads := timed.reads + 1 })
  else (none, timed)

/-- The limit of hours. -/
def checkRuntime (timed : TimedBudget) : Option BudgetExceeded × TimedBudget :=
  let maxHours := timed.budget.limits.maxRuntimeHours
  if maxHours > 0 then
    let elapsed := clock timed.reads - timed.budget.startedAt
    (if elapsed ≥ maxHours * 60 * 60 * 1000 then some (runtimeReached elapsed maxHours) else none,
      { timed with reads := timed.reads + 1 })
  else (none, timed)

/-- The three limits, one after the other, up to the first that is reached. -/
def exceeded (timed : TimedBudget) : Option BudgetExceeded × TimedBudget :=
  match checkInvocations clock timed with
  | (some reached, timed) => (some reached, timed)
  | (none, timed) =>
      match checkIssues clock timed with
      | (some reached, timed) => (some reached, timed)
      | (none, timed) => checkRuntime clock timed

/-- Whether anything stops the loop taking more work. -/
def check (timed : TimedBudget) : Option BudgetExceeded × TimedBudget := exceeded clock (prune clock timed)

/-- What has been spent so far. -/
def snapshot (timed : TimedBudget) : BudgetSnapshot × TimedBudget :=
  let timed := prune clock timed
  (⟨timed.budget.invocations.length, clock timed.reads - timed.budget.startedAt⟩,
    { timed with reads := timed.reads + 1 })

/-! ### What a check reads -/

section Readings

variable (timed : TimedBudget)

/-- How often the clock is read for a limit: not at all where it is off. -/
def readsFor (limit : ℕ) : ℕ := if limit > 0 then 1 else 0

/-- The reading at which issues are counted. -/
def readsForIssues : ℕ := timed.reads + readsFor timed.budget.limits.maxModelInvocationsPerHour

/-- The reading that tells how long the session has lasted. -/
def readsForRuntime : ℕ := timed.readsForIssues + readsFor timed.budget.limits.maxIssuesPerDay

theorem reads_le_readsForIssues : timed.reads ≤ timed.readsForIssues := Nat.le_add_right _ _

theorem readsForIssues_le_readsForRuntime : timed.readsForIssues ≤ timed.readsForRuntime :=
  Nat.le_add_right _ _

theorem checkInvocations_eq :
    checkInvocations clock timed =
      (if timed.budget.limits.maxModelInvocationsPerHour > 0 ∧
          Budget.within timed.budget.invocations (clock timed.reads) hourMs ≥
            timed.budget.limits.maxModelInvocationsPerHour then
        some (invocationsReached (Budget.within timed.budget.invocations (clock timed.reads) hourMs)
          timed.budget.limits.maxModelInvocationsPerHour)
      else none, ⟨timed.budget, timed.readsForIssues⟩) := by
  by_cases hon : timed.budget.limits.maxModelInvocationsPerHour > 0
  · simp only [checkInvocations, readsForIssues, readsFor, hon, true_and, if_true]
  · simp only [checkInvocations, readsForIssues, readsFor, hon, false_and, if_false, Nat.add_zero]

theorem checkIssues_eq :
    checkIssues clock timed =
      (if timed.budget.limits.maxIssuesPerDay > 0 ∧
          Budget.within timed.budget.issues (clock timed.reads) dayMs ≥
            timed.budget.limits.maxIssuesPerDay then
        some (issuesReached (Budget.within timed.budget.issues (clock timed.reads) dayMs)
          timed.budget.limits.maxIssuesPerDay)
      else none,
        ⟨timed.budget, timed.reads + readsFor timed.budget.limits.maxIssuesPerDay⟩) := by
  by_cases hon : timed.budget.limits.maxIssuesPerDay > 0
  · simp only [checkIssues, readsFor, hon, true_and, if_true]
  · simp only [checkIssues, readsFor, hon, false_and, if_false, Nat.add_zero]

theorem checkRuntime_fst :
    (checkRuntime clock timed).1 =
      if timed.budget.limits.maxRuntimeHours > 0 ∧
          clock timed.reads - timed.budget.startedAt ≥
            timed.budget.limits.maxRuntimeHours * 60 * 60 * 1000 then
        some (runtimeReached (clock timed.reads - timed.budget.startedAt)
          timed.budget.limits.maxRuntimeHours)
      else none := by
  by_cases hon : timed.budget.limits.maxRuntimeHours > 0
  · simp only [checkRuntime, hon, true_and, if_true]
  · simp only [checkRuntime, hon, false_and, if_false]

theorem checkRuntime_budget : (checkRuntime clock timed).2.budget = timed.budget := by
  unfold checkRuntime
  dsimp only
  split
  · rfl
  · rfl

theorem reads_le_checkRuntime : timed.reads ≤ (checkRuntime clock timed).2.reads := by
  unfold checkRuntime
  dsimp only
  split
  · exact Nat.le_succ _
  · exact Nat.le_refl _

/-- The three limits at their readings. -/
theorem exceeded_eq :
    (exceeded clock timed).1 =
      let limits := timed.budget.limits
      let invocations := Budget.within timed.budget.invocations (clock timed.reads) hourMs
      let issues := Budget.within timed.budget.issues (clock timed.readsForIssues) dayMs
      let elapsed := clock timed.readsForRuntime - timed.budget.startedAt
      if limits.maxModelInvocationsPerHour > 0 ∧ invocations ≥ limits.maxModelInvocationsPerHour then
        some (invocationsReached invocations limits.maxModelInvocationsPerHour)
      else if limits.maxIssuesPerDay > 0 ∧ issues ≥ limits.maxIssuesPerDay then
        some (issuesReached issues limits.maxIssuesPerDay)
      else if limits.maxRuntimeHours > 0 ∧ elapsed ≥ limits.maxRuntimeHours * 60 * 60 * 1000 then
        some (runtimeReached elapsed limits.maxRuntimeHours)
      else none := by
  dsimp only
  rw [exceeded, checkInvocations_eq]
  split_ifs with hinvocations hissues hruntime
  · rfl
  all_goals
    dsimp only
    rw [checkIssues_eq]
  · rw [if_pos hissues]
  · rw [if_neg hissues]
    exact (checkRuntime_fst clock _).trans (if_pos hruntime)
  · rw [if_neg hissues]
    exact (checkRuntime_fst clock _).trans (if_neg hruntime)

/-- Counting changes nothing. -/
theorem exceeded_budget : (exceeded clock timed).2.budget = timed.budget := by
  rw [exceeded, checkInvocations_eq]
  split_ifs with hinvocations
  · rfl
  · dsimp only
    rw [checkIssues_eq]
    split_ifs with hissues
    · rfl
    · exact checkRuntime_budget clock _

theorem reads_le_exceeded : timed.reads ≤ (exceeded clock timed).2.reads := by
  rw [exceeded, checkInvocations_eq]
  split_ifs with hinvocations
  · exact reads_le_readsForIssues timed
  · dsimp only
    rw [checkIssues_eq]
    split_ifs with hissues
    · exact (reads_le_readsForIssues timed).trans (Nat.le_add_right _ _)
    · have hissuesRead : timed.reads ≤ timed.readsForRuntime :=
        (reads_le_readsForIssues timed).trans (readsForIssues_le_readsForRuntime timed)
      exact hissuesRead.trans (reads_le_checkRuntime clock ⟨timed.budget, timed.readsForRuntime⟩)

end Readings

end TimedBudget

/-! ### The budget while the clock stands still -/

namespace Budget

/-- Drop the entries that have aged out. -/
def prune (budget : Budget) (now : ℕ) : Budget := (TimedBudget.prune (fun _ => now) ⟨budget, 0⟩).budget

/-- Whether anything stops the loop taking more work. -/
def check (budget : Budget) (now : ℕ) : Option BudgetExceeded × Budget :=
  let (answer, timed) := TimedBudget.check (fun _ => now) ⟨budget, 0⟩
  (answer, timed.budget)

/-- What has been spent so far. -/
def snapshot (budget : Budget) (now : ℕ) : BudgetSnapshot × Budget :=
  let (answer, timed) := TimedBudget.snapshot (fun _ => now) ⟨budget, 0⟩
  (answer, timed.budget)

variable {budget : Budget} {now : ℕ}

/-- Every limit that is on has room. -/
structure Room (budget : Budget) (now : ℕ) : Prop where
  invocations : ¬ (budget.limits.maxModelInvocationsPerHour > 0 ∧
    within budget.invocations now hourMs ≥ budget.limits.maxModelInvocationsPerHour)
  issues : ¬ (budget.limits.maxIssuesPerDay > 0 ∧
    within budget.issues now dayMs ≥ budget.limits.maxIssuesPerDay)
  runtime : ¬ (budget.limits.maxRuntimeHours > 0 ∧
    now - budget.startedAt ≥ budget.limits.maxRuntimeHours * 60 * 60 * 1000)

theorem exceeded_eq_none_iff (timed : TimedBudget) :
    (TimedBudget.exceeded (fun _ => now) timed).1 = none ↔ timed.budget.Room now := by
  rw [TimedBudget.exceeded_eq]
  dsimp only
  split
  · rename_i hfull
    exact iff_of_false (by simp) fun room => room.invocations hfull
  · rename_i hinvocations
    split
    · rename_i hfull
      exact iff_of_false (by simp) fun room => room.issues hfull
    · rename_i hissues
      split
      · rename_i hfull
        exact iff_of_false (by simp) fun room => room.runtime hfull
      · rename_i hruntime
        exact iff_of_true rfl ⟨hinvocations, hissues, hruntime⟩

/-- What aged out does not count. -/
theorem room_prune : (budget.prune now).Room now ↔ budget.Room now := by
  have hinvocations : within (budget.prune now).invocations now hourMs =
      within budget.invocations now hourMs := since_prune (Nat.le_refl _) _
  have hissues : within (budget.prune now).issues now dayMs = within budget.issues now dayMs :=
    since_prune (Nat.le_refl _) _
  constructor
  · rintro ⟨hi, hs, hr⟩
    rw [hinvocations] at hi
    rw [hissues] at hs
    exact ⟨hi, hs, hr⟩
  · rintro ⟨hi, hs, hr⟩
    rw [← hinvocations] at hi
    rw [← hissues] at hs
    exact ⟨hi, hs, hr⟩

theorem check_eq_none_iff : (budget.check now).1 = none ↔ budget.Room now :=
  (exceeded_eq_none_iff _).trans room_prune

/-- A check drops what has aged out, and nothing else. -/
theorem check_snd : (budget.check now).2 = budget.prune now := TimedBudget.exceeded_budget _ _

/-- The budget with another list of issues. -/
def counting (budget : Budget) (issues : List ℕ) : Budget := { budget with issues := issues }

/-- A check that passed would have passed on every list of issues the recorded ones cover. -/
theorem check_counting {issues : List ℕ} (hcovers : Covers budget.issues issues (now - dayMs))
    (h : (budget.check now).1 = none) : ((budget.counting issues).check now).1 = none := by
  rw [check_eq_none_iff] at h ⊢
  refine ⟨h.invocations, fun hfull => h.issues ⟨hfull.1, ?_⟩, h.runtime⟩
  exact hfull.2.trans (hcovers _ (Nat.le_refl _))

end Budget

end Newsdeck.Runner

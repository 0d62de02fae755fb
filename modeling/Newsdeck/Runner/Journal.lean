import Newsdeck.Loop.Context

/-!
# The runner's journal

One record for each issue this machine has worked on, newest first, at most 200 of them.

* `mem_upsertRun` — what an upsert keeps of the other records, and what it adds.
-/

namespace Newsdeck.Runner

open Ecma Loop

inductive AttemptPhase where
  | implement
  | verify
  | review
  | fix
  | publish
  deriving DecidableEq, Repr

inductive AttemptOutcome where
  | ok
  | failed
  | skipped
  deriving DecidableEq, Repr

structure Attempt where
  at_ : Text
  phase : AttemptPhase
  outcome : AttemptOutcome
  detail : Text
  deriving DecidableEq, Repr

inductive RunStatus where
  | inProgress
  | awaitingReview
  | blocked
  | done
  deriving DecidableEq, Repr

structure RunRecord where
  issue : ℕ
  branch : Text
  worktree : Text
  startedAt : Text
  updatedAt : Text
  status : RunStatus
  fixRounds : ℕ
  ciRounds : ℕ
  conflictRounds : ℕ
  pullRequest : Option ℕ
  risk : Option RiskLevel
  attempts : List Attempt
  deriving DecidableEq, Repr

structure Journal where
  runs : List RunRecord
  deriving DecidableEq, Repr

def emptyJournal : Journal := ⟨[]⟩

def findRun (journal : Journal) (issue : ℕ) : Option RunRecord :=
  journal.runs.find? fun run => run.issue = issue

/-- Insert or replace the record for an issue, newest first. -/
def upsertRun (journal : Journal) (run : RunRecord) : Journal :=
  let rest := journal.runs.filter fun existing => existing.issue ≠ run.issue
  { journal with runs := (run :: rest).take 200 }

def appendAttempt (run : RunRecord) (attempt : Attempt) : RunRecord :=
  { run with
    updatedAt := attempt.at_
    attempts := takeLast 100 (run.attempts ++ [attempt]) }

/-- The runner has not finished with the issue. -/
def RunRecord.isInFlight (run : RunRecord) : Bool :=
  run.status = .inProgress || run.status = .awaitingReview

/-- Runs this machine started that GitHub has not finished with yet. -/
def inFlight (journal : Journal) : List RunRecord := journal.runs.filter RunRecord.isInFlight

/-! ### Lookups and upserts -/

theorem findRun_mem {journal : Journal} {issue : ℕ} {run : RunRecord}
    (h : findRun journal issue = some run) : run ∈ journal.runs ∧ run.issue = issue :=
  ⟨List.mem_of_find?_eq_some h, by simpa using List.find?_some h⟩

theorem findRun_eq_none {journal : Journal} {issue : ℕ} :
    findRun journal issue = none ↔ ∀ run ∈ journal.runs, run.issue ≠ issue := by
  simp [findRun, List.find?_eq_none]

/-- The upserted record stands first. -/
theorem upsertRun_runs (journal : Journal) (run : RunRecord) :
    (upsertRun journal run).runs =
      run :: (journal.runs.filter fun existing => existing.issue ≠ run.issue).take 199 := rfl

theorem mem_upsertRun {journal : Journal} {run r : RunRecord} (h : r ∈ (upsertRun journal run).runs) :
    r = run ∨ r ∈ journal.runs ∧ r.issue ≠ run.issue := by
  rw [upsertRun_runs, List.mem_cons] at h
  rcases h with rfl | h
  · exact .inl rfl
  · have hfilter := List.mem_filter.mp (List.mem_of_mem_take h)
    exact .inr ⟨hfilter.1, by simpa using hfilter.2⟩

theorem self_mem_upsertRun (journal : Journal) (run : RunRecord) :
    run ∈ (upsertRun journal run).runs := by
  rw [upsertRun_runs]
  exact List.mem_cons_self

@[simp] theorem findRun_upsertRun_self (journal : Journal) (run : RunRecord) :
    findRun (upsertRun journal run) run.issue = some run := by
  unfold findRun
  rw [upsertRun_runs, List.find?_cons_of_pos (by simp)]

end Newsdeck.Runner

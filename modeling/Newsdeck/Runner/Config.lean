import Newsdeck.Loop.Policy

/-!
# Runner configuration

The settings the runner reads, with the bounds their schema accepts.
-/

namespace Newsdeck.Runner

open Ecma

/-- The part of `runnerConfigSchema` the runner's control flow reads. -/
structure RunnerConfig where
  unattended : Bool
  maxIssues : Option ℕ
  codingFixRounds : ℕ
  ciFixRounds : ℕ
  reviewerRetryRounds : ℕ
  conflictRounds : ℕ
  worktreeRoot : Text
  pollIntervalSeconds : ℕ
  maxConsecutiveFailures : ℕ
  backoffBaseSeconds : ℕ
  backoffMaxSeconds : ℕ
  codingFixRounds_le : 1 ≤ codingFixRounds ∧ codingFixRounds ≤ 10
  ciFixRounds_le : 1 ≤ ciFixRounds ∧ ciFixRounds ≤ 10
  reviewerRetryRounds_le : 1 ≤ reviewerRetryRounds ∧ reviewerRetryRounds ≤ 5
  conflictRounds_le : 1 ≤ conflictRounds ∧ conflictRounds ≤ 5

/-- The defaults of the schema. -/
def defaultConfig : RunnerConfig where
  unattended := false
  maxIssues := none
  codingFixRounds := 3
  ciFixRounds := 3
  reviewerRetryRounds := 2
  conflictRounds := 2
  worktreeRoot := lit "../.loop-worktrees"
  pollIntervalSeconds := 60
  maxConsecutiveFailures := 8
  backoffBaseSeconds := 30
  backoffMaxSeconds := 900
  codingFixRounds_le := by decide
  ciFixRounds_le := by decide
  reviewerRetryRounds_le := by decide
  conflictRounds_le := by decide

/-- Issues this run may take; `0` means unlimited. -/
def issueBudget (config : RunnerConfig) : ℕ :=
  match config.maxIssues with
  | some limit => limit
  | none => if config.unattended then 0 else 1

end Newsdeck.Runner

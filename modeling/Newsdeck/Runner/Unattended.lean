import Newsdeck.Runner.Advance

/-!
# The unattended session

The session alternates between moving open pull requests forward and taking new issues, one at a time,
until there is nothing left to do.  `runUnattended` is the loop with a bound on its cycles; `none` is
a session that is still running.
-/

namespace Newsdeck.Runner

open Ecma Loop Effects

/-! ### The summary -/

inductive RecordedOutcome where
  | merged
  | opened
  | blocked
  | skipped
  deriving DecidableEq, Repr

structure IssueRecord where
  issue : ℕ
  title : Text
  pullRequest : Option ℕ
  risk : Option RiskLevel
  outcome : RecordedOutcome
  detail : Text

structure RunSummary where
  startedAt : Text
  finishedAt : Text
  stopReason : Text
  issues : List IssueRecord
  modelInvocations : ℕ
  runtimeMs : ℕ

def emptySummary (startedAt : Text) : RunSummary :=
  ⟨startedAt, startedAt, lit "still running", [], 0, 0⟩

/-- Replace an issue's record, or append it. -/
def recordInSummary (summary : RunSummary) (record : IssueRecord) : RunSummary :=
  let rest := summary.issues.filter fun existing => existing.issue ≠ record.issue
  { summary with issues := (rest ++ [record]).insertionSort fun a b => a.issue ≤ b.issue }

structure UnattendedResult where
  summary : RunSummary
  stopReason : StopReason

/-! ### The variables of the loop -/

structure Session where
  summary : RunSummary
  blockedThisRun : List ℕ
  taken : ℕ
  /-- Consecutive failures, as the backoff counts them. -/
  failures : ℕ

def finishSession (session : Session) (stopReason : StopReason) (detail : Text) :
    Action UnattendedResult := do
  let finishedAt ← now
  let spent ← snapshot
  let elapsed ← snapshot
  .ret ⟨{ session.summary with
    finishedAt := finishedAt
    stopReason := detail
    modelInvocations := spent.invocations
    runtimeMs := elapsed.runtimeMs }, stopReason⟩

inductive CycleEnd where
  | finished (result : UnattendedResult)
  | retry (session : Session)
  | completed (session : Session)

/-- How long the backoff waits after so many consecutive failures. -/
def waitMs (config : RunnerConfig) (consecutive : ℕ) : ℕ :=
  min (config.backoffBaseSeconds * 1000 * 2 ^ (consecutive - 1)) (config.backoffMaxSeconds * 1000)

/-- Wait out a failure, or end the session. -/
def tolerate (deps : RunnerDeps) (session : Session) (detail : ℕ → Text) : Action CycleEnd := do
  let consecutive := session.failures + 1
  let session := { session with failures := consecutive }
  if consecutive > deps.config.maxConsecutiveFailures then
    let result ← finishSession session .githubUnavailable (detail consecutive)
    .ret (.finished result)
  else
    sleep (waitMs deps.config consecutive)
    .ret (.retry session)

/-- What the session notes of one step of `advance`. -/
def noteAdvanced (session : Session) (outcome : AdvanceOutcome) : Session :=
  let note (recorded : RecordedOutcome) : RunSummary := recordInSummary session.summary
    ⟨outcome.issue, outcome.title, outcome.pullRequest, outcome.risk, recorded, outcome.detail⟩
  if outcome.issue = 0 then session
  else if outcome.action = .merged then { session with summary := note .merged }
  else if outcome.action = .retriesExhausted ∨ outcome.action = .closed then
    { session with
      blockedThisRun := session.blockedThisRun ++ [outcome.issue]
      summary := note .blocked }
  else session

/-- What the session notes of an issue it took. -/
def noteTaken (session : Session) (outcome : IssueOutcome) : Session :=
  { session with
    taken := session.taken + 1
    summary := recordInSummary session.summary
      ⟨outcome.issue, hash outcome.issue, outcome.pullRequest,
        outcome.risk.map RiskAssessment.risk,
        if outcome.status = .blocked then .blocked else .opened, outcome.detail⟩
    blockedThisRun :=
      if outcome.status = .blocked then session.blockedThisRun ++ [outcome.issue]
      else session.blockedThisRun }

def noteOutcomes (session : Session) : List IssueOutcome → Action Session
  | [] => .ret session
  | outcome :: rest => do
      recordIssue
      noteOutcomes (noteTaken session outcome) rest

variable [Host] [Unicode]

/-- Take new work, when nothing is in flight. -/
def takeWork (deps : RunnerDeps) (session : Session) : Action CycleEnd := do
  let limit := issueBudget deps.config
  if limit ≠ 0 ∧ session.taken ≥ limit then
    let result ← finishSession session .maxIssuesReached
      (lit "the " ++ decimal limit ++ lit "-issue ceiling for this run was reached")
    .ret (.finished result)
  else
    match ← checkBudget with
    | some exceeded =>
        let result ← finishSession session .budgetExceeded
          (lit "operational budget reached — " ++ exceeded.detail)
        .ret (.finished result)
    | none =>
        match ← (runOnce deps (some session.blockedThisRun)).attempt with
        | .error message =>
            tolerate deps session fun failures => lit "the loop kept failing across " ++
              decimal failures ++ lit " attempts: " ++ message
        | .ok result =>
            let session ← noteOutcomes session result.outcomes
            if result.stopReason = .nothingReady ∧ result.outcomes.length = 0 then
              let result ← finishSession session .nothingReady result.detail
              .ret (.finished result)
            else .ret (.completed session)

/-- After `advance`: take new work, or leave it at that. -/
def afterAdvance (deps : RunnerDeps) (session : Session) : Action CycleEnd := do
  let journal ← readJournal
  if (inFlight journal).length = 0 then takeWork deps session else .ret (.completed session)

/-- One turn of the loop, up to the pause. -/
def cycle (deps : RunnerDeps) (session : Session) : Action CycleEnd := do
  match ← (advance deps).attempt with
  | .error message =>
      tolerate deps session fun failures => lit "GitHub stayed unreachable across " ++
        decimal failures ++ lit " attempts: " ++ message
  | .ok advanced => afterAdvance deps (advanced.foldl noteAdvanced session)

def interruptedDetail : Text := lit "the runner was asked to stop"

/-- The loop, for at most so many turns. -/
def sessionLoop (deps : RunnerDeps) : ℕ → Session → Action (Option UnattendedResult)
  | 0, _ => .ret none
  | turns + 1, session => do
      if ← stopping then
        let result ← finishSession session .interrupted interruptedDetail
        .ret (some result)
      else
        match ← cycle deps session with
        | .finished result => .ret (some result)
        | .retry session => sessionLoop deps turns session
        | .completed session =>
            let session := { session with failures := 0 }
            if ← stopping then
              let result ← finishSession session .interrupted interruptedDetail
              .ret (some result)
            else
              sleep (deps.config.pollIntervalSeconds * 1000)
              sessionLoop deps turns session

/-- Run until there is nothing left to do. -/
def runUnattended (deps : RunnerDeps) (turns : ℕ) : Action (Option UnattendedResult) := do
  let startedAt ← now
  sessionLoop deps turns ⟨emptySummary startedAt, [], 0, 0⟩

end Newsdeck.Runner

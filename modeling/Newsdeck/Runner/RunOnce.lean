import Newsdeck.Runner.Selection
import Newsdeck.Runner.WorkIssue

/-!
# One issue at a time

`runOnce` resumes the first run in flight when this machine has something to do for it, and selects an
eligible issue when nothing is in flight.  `runOnce_eq` cuts it in two: `plan` decides, and
`carryOut` calls `workIssue` or reports that there is nothing to do.
-/

namespace Newsdeck.Runner

open Ecma Loop Effects

inductive StopReason where
  | nothingReady
  | maxIssuesReached
  | blocked
  | inFlight
  | budgetExceeded
  | githubUnavailable
  | interrupted
  deriving DecidableEq, Repr

structure OnceResult where
  outcomes : List IssueOutcome
  stopReason : StopReason
  detail : Text

/-- What makes an in-flight run actionable. -/
inductive ResumeReason where
  | noPullRequest
  | conflict
  | failingChecks
  deriving DecidableEq, Repr

structure Resumption where
  /-- Why there is something to do; `none` when there is not. -/
  reason : Option ResumeReason
  detail : Text
  feedback : Option Text

def Resumption.actionable (resumption : Resumption) : Bool := resumption.reason.isSome

def conflictFeedback : Text :=
  join (lit "\n") [lit "### This pull request conflicts with the base branch", [],
    lit "The base branch has moved on and the merge is no longer clean. Resolve the",
    lit "conflict in favour of both intents: keep the change this issue asks for and",
    lit "keep whatever landed on the base branch. Do not discard either side."]

def checksFeedback (failing : List Text) : Text :=
  join (lit "\n") ([lit "### GitHub CI is failing", [],
      lit "These required checks are red on the pull request:", []] ++
    failing.map (fun name => lit "- " ++ name) ++
    [[], lit "Reproduce them locally with the repository's own commands and fix the cause.",
      lit "Do not weaken or skip a test to make a check pass — that is caught and it blocks the merge."])

def hash (number : ℕ) : Text := lit "#" ++ decimal number

section Judge

variable [Unicode]

/-- GitHub is done with the pull request. -/
def GhPullRequest.isSettled (pr : GhPullRequest) : Bool :=
  Unicode.toUpperCase pr.state ∈ [lit "MERGED", lit "CLOSED"]

/-- What `resumable` makes of the checks of an open pull request without a conflict. -/
def judgeChecks (config : RunnerConfig) (record : RunRecord) (number : ℕ) (pr : GhPullRequest) :
    Resumption :=
  let (verdict, failing) := summariseChecks pr
  if verdict ≠ .failing then
    ⟨none, hash record.issue ++ lit " is with GitHub: pull request " ++ hash number ++
      lit ", checks " ++ verdict.text ++ lit ". Nothing for the runner to do until that changes.",
      none⟩
  else if record.ciRounds + 1 ≥ config.ciFixRounds then
    ⟨none, lit "Checks on " ++ hash number ++ lit " are failing (" ++ join (lit ", ") failing ++
      lit ") and the " ++ decimal config.ciFixRounds ++
      lit "-round budget is spent. This needs a human.", none⟩
  else
    ⟨some .failingChecks, lit "checks are failing (" ++ join (lit ", ") failing ++ lit ")",
      some (checksFeedback failing)⟩

/-- What `resumable` makes of an open pull request. -/
def judgeOpen (config : RunnerConfig) (record : RunRecord) (number : ℕ) (pr : GhPullRequest)
    (mergeable : Mergeability) : Resumption :=
  if mergeable = .conflicted then
    if record.conflictRounds ≥ config.conflictRounds then
      ⟨none, hash number ++ lit " is conflicted and the " ++ decimal config.conflictRounds ++
        lit "-attempt budget is spent.", none⟩
    else
      ⟨some .conflict, lit "the pull request has a merge conflict", some conflictFeedback⟩
  else judgeChecks config record number pr

/-- Whether an in-flight run has work left that this machine can do. -/
def resumable [Host] (deps : RunnerDeps) (record : RunRecord) : Action Resumption :=
  match record.pullRequest with
  | none => .ret ⟨some .noPullRequest, lit "no pull request was opened yet", none⟩
  | some number => do
      let pr ← pullRequest number
      if pr.isSettled then
        .ret ⟨none, hash number ++ lit " is " ++
          Host.toLowerCase (Unicode.toUpperCase pr.state) ++
          lit "; the next cycle will clean it up.", none⟩
      else
        let mergeable ← mergeability number
        .ret (judgeOpen deps.config record number pr mergeable)

end Judge

/-- What one call of `runOnce` decided to do. -/
inductive Plan where
  | report (result : OnceResult)
  | resume (issue : IssueSummary) (startRound : ℕ) (resumption : Resumption)
  | start (issue : IssueSummary)

variable [Host] [Unicode]

/-- The decision about the first run in flight. -/
def planResume (deps : RunnerDeps) (record : RunRecord) : Action Plan := do
  let resumption ← resumable deps record
  if !resumption.actionable then .ret (.report ⟨[], .inFlight, resumption.detail⟩)
  else
    let issue ← ghIssue record.issue
    -- Rounds already spent stay spent.
    .ret (.resume (toSummary issue) (record.fixRounds + 1) resumption)

/-- The decision when nothing is in flight. -/
def planStart (deps : RunnerDeps) (skip : Option (List ℕ)) : Action Plan := do
  let listed ← ghIssues
  let selection := runnerSelection listed deps.selectionPolicy skip
  match selection.selected with
  | none => .ret (.report
      ⟨[], .nothingReady, selection.stopReason.getD (lit "No issue is ready.")⟩)
  | some issue => .ret (.start issue)

def plan (deps : RunnerDeps) (skip : Option (List ℕ)) : Action Plan := do
  let journal ← readJournal
  match inFlight journal with
  | record :: _ => planResume deps record
  | [] => planStart deps skip

def onceResult (outcome : IssueOutcome) : OnceResult :=
  ⟨[outcome], if outcome.status = .blocked then .blocked else .maxIssuesReached, outcome.detail⟩

def carryOut (deps : RunnerDeps) : Plan → Action OnceResult
  | .report result => .ret result
  | .resume issue startRound resumption => do
      let outcome ← workIssue deps issue ⟨startRound, resumption.feedback⟩
      .ret (onceResult outcome)
  | .start issue => do
      let outcome ← workIssue deps issue ⟨0, none⟩
      .ret (onceResult outcome)

/-- Take one issue through the local coding phase. -/
def runOnce (deps : RunnerDeps) (skip : Option (List ℕ)) : Action OnceResult := do
  let decision ← plan deps skip
  carryOut deps decision

end Newsdeck.Runner

import Newsdeck.Runner.RunOnce

/-!
# Moving open pull requests forward

`advance` looks at every run in flight once: it cleans up after a pull request GitHub is done with,
updates a stale branch, counts a round of failing checks, or gives the issue up.
-/

namespace Newsdeck.Runner

open Ecma Loop Effects

inductive AdvanceAction where
  | waitingForCi
  | ciFailedFixing
  | conflict
  | updatedBranch
  | awaitingMerge
  | merged
  | closed
  | retriesExhausted
  | nothingToDo
  deriving DecidableEq, Repr

structure AdvanceOutcome where
  issue : ℕ
  title : Text
  pullRequest : Option ℕ
  risk : Option RiskLevel
  action : AdvanceAction
  detail : Text

/-- Remove the worktree of a run, when the record names the one the runner created for the issue. -/
def removeOwnWorktree (deps : RunnerDeps) (record : RunRecord) : Action Unit :=
  if record.worktree = worktreePath deps record.issue then do
    let _ ← (removeWorktree deps.repository record.worktree).attempt
    .ret ()
  else .ret ()

/-- Clean up after a run GitHub has finished with. -/
def finishRun (deps : RunnerDeps) (record : RunRecord) (status : RunStatus) : Action Unit := do
  removeOwnWorktree deps record
  let journal ← readJournal
  writeJournal (upsertRun journal { record with status := status })

/-- Give an issue up. -/
def blockRun (deps : RunnerDeps) (record : RunRecord) (detail : Text) : Action Unit := do
  let journal ← readJournal
  writeJournal (upsertRun journal { record with status := .blocked })
  removeLabel record.issue reviewLabel
  addLabels record.issue [blockedLabel]
  comment record.issue
    { issue := record.issue
      branch := record.branch
      agent := deps.codingName
      phase := lit "stopped"
      body := detail ++ lit "\n\nThe loop has moved on to independent work. This issue needs a person; nothing else is waiting on it." }

/-- One more round of failing checks. -/
def countCiRound (record : RunRecord) : Action Unit := do
  let journal ← readJournal
  writeJournal (upsertRun journal { record with ciRounds := record.ciRounds + 1 })

def ciExhausted (rounds : ℕ) (failing : List Text) : Text :=
  lit "CI is still failing after " ++ decimal rounds ++ lit " round(s): " ++
    join (lit ", ") failing ++ lit "."

def advanceOutcome (record : RunRecord) (action : AdvanceAction) (detail : Text) : AdvanceOutcome :=
  ⟨record.issue, hash record.issue, record.pullRequest, record.risk, action, detail⟩

section Advance

variable [Unicode]

/-- What becomes of a run whose checks have failed. -/
def advanceFailing (deps : RunnerDeps) (record : RunRecord) (failing : List Text) :
    Action AdvanceOutcome := do
  if record.ciRounds + 1 ≥ deps.config.ciFixRounds then
    blockRun deps record (ciExhausted (record.ciRounds + 1) failing)
    .ret (advanceOutcome record .retriesExhausted
      (lit "Retry budget spent; the issue is marked `agent:blocked` and the loop moves on."))
  else
    countCiRound record
    .ret (advanceOutcome record .ciFailedFixing (lit "Checks failing (" ++
      join (lit ", ") failing ++ lit "); the next cycle will start a fix round."))

/-- What becomes of a run whose open pull request has been brought up to date. -/
def advanceOpen (deps : RunnerDeps) (record : RunRecord) (number : ℕ) (pr : GhPullRequest)
    (mergeable : Mergeability) : Action AdvanceOutcome :=
  if mergeable = .conflicted then
    .ret (advanceOutcome record .conflict (hash number ++
      lit " has a merge conflict; the next cycle will attempt a bounded resolution."))
  else
    let (verdict, failing) := summariseChecks pr
    match verdict with
    | .pending | .none =>
        .ret (advanceOutcome record .waitingForCi
          (lit "Checks on " ++ hash number ++ lit " are " ++ verdict.text ++ lit "."))
    | .failing => advanceFailing deps record failing
    | .passing =>
        .ret (advanceOutcome record .awaitingMerge (hash number ++ lit " is green. Merge state: " ++
          pr.mergeStateStatus.getD (lit "unknown") ++
          lit ". GitHub's auto-merge takes it from here."))

/-- One run in flight, one step. -/
def advanceRun (deps : RunnerDeps) (record : RunRecord) : Action AdvanceOutcome :=
  match record.pullRequest with
  | none => .ret (advanceOutcome record .nothingToDo
      (lit "No pull request yet; the next cycle will resume it."))
  | some number => do
      let pr ← pullRequest number
      if Unicode.toUpperCase pr.state = lit "MERGED" then
        finishRun deps record .done
        .ret (advanceOutcome record .merged (hash number ++ lit " merged; worktree cleaned up."))
      else if Unicode.toUpperCase pr.state = lit "CLOSED" then
        finishRun deps record .done
        .ret (advanceOutcome record .closed (hash number ++
          lit " was closed without merging. Leaving " ++ hash record.issue ++ lit " to a person."))
      else
        let mergeable ← mergeability number
        if mergeable = .behind then
          match ← (updateBranch number).attempt with
          | .ok () => .ret (advanceOutcome record .updatedBranch (hash number ++
              lit " was behind the base branch; updated, and checks will re-run."))
          | .error _ => advanceOpen deps record number pr mergeable
        else advanceOpen deps record number pr mergeable

/-- The runs in flight, one after the other. -/
def advanceAll (deps : RunnerDeps) : List RunRecord → Action (List AdvanceOutcome)
  | [] => .ret []
  | record :: rest => do
      let outcome ← advanceRun deps record
      let outcomes ← advanceAll deps rest
      .ret (outcome :: outcomes)

def nothingInFlight : AdvanceOutcome := ⟨0, [], none, none, .nothingToDo, lit "Nothing in flight."⟩

/-- Move work that is already on GitHub forward by one step. -/
def advance (deps : RunnerDeps) : Action (List AdvanceOutcome) := do
  let journal ← readJournal
  let outcomes ← advanceAll deps (inFlight journal)
  .ret (if outcomes.length = 0 then [nothingInFlight] else outcomes)

end Advance

end Newsdeck.Runner

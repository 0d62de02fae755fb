import Newsdeck.Loop.Risk
import Newsdeck.Loop.State

/-!
# The sticky comment

`renderPullRequestSummary`, the human-readable half of the comment in which the loop keeps its
state.  Free text is put through `sanitiseForMarkdown` with three exceptions: the names of the
checks, the files of the findings and the abbreviated heads of recurring findings (`rawFields`).
-/

namespace Newsdeck.Loop

open Ecma

/-- `DECISION_LABEL`. -/
def decisionLabel : GateDecision → Text
  | .autoMerge => lit "Auto merge enabled"
  | .humanApprovalRequired => lit "Human approval required"
  | .changesRequested => lit "Changes requested"
  | .blocked => lit "Blocked — automation stopped"
  | .waiting => lit "Waiting"

/-- How a gate's conclusion prints. -/
def gateConclusionText : GateConclusion → Text
  | .success => lit "success"
  | .failure => lit "failure"

/-- How a check's conclusion prints. -/
def checkConclusionText : CheckConclusion → Text
  | .success => lit "success"
  | .failure => lit "failure"
  | .pending => lit "pending"
  | .skipped => lit "skipped"
  | .neutral => lit "neutral"
  | .cancelled => lit "cancelled"
  | .timedOut => lit "timed_out"
  | .missing => lit "missing"

/-- How the source of a risk reason prints. -/
def riskSourceText : RiskSource → Text
  | .default => lit "default"
  | .path => lit "path"
  | .label => lit "label"
  | .escalation => lit "escalation"
  | .controlPlane => lit "control-plane"
  | .basePolicy => lit "base-policy"

structure PullRequestView where
  issue : Option ℕ∞
  risk : RiskAssessment
  review : ReviewResult
  outcome : GateOutcome
  state : LoopState
  maxReviewAttempts : ℕ
  checks : List CheckState
  recurrence : List RecurringFinding

def tableRow (row : Text × Text) : Text := lit "| " ++ row.1 ++ lit " | " ++ row.2 ++ lit " |"

def table (rows : List (Text × Text)) : Text :=
  join (lit "\n") ([lit "| | |", lit "| --- | --- |"] ++ rows.map tableRow)

/-- The row of a finding. -/
def findingRow (finding : Finding) : Text :=
  lit "| " ++ severityText finding.severity ++ lit " | " ++ finding.file.getD (lit "—") ++ lit " | " ++
    sanitiseForMarkdown finding.description ++ lit " | " ++
    sanitiseForMarkdown finding.suggestedAction ++ lit " |"

def occurrenceText (occurrence : RecurrenceOccurrence) : Text :=
  lit "attempt " ++ decimal occurrence.attempt ++ lit " (`" ++ occurrence.headSha.take 12 ++ lit "`)"

def recurringLine (recurring : RecurringFinding) : Text :=
  let heads := join (lit ", ") (recurring.occurrences.map occurrenceText)
  lit "- " ++ sanitiseForMarkdown recurring.finding.description ++ lit " — survived " ++ heads ++
    lit ". Diff those heads to see what was tried before attempting another fix."

def reasonLine (reason : Text) : Text := lit "- " ++ sanitiseForMarkdown reason

def riskReasonLine (reason : RiskReason) : Text :=
  lit "- `" ++ riskText reason.risk ++ lit "` from " ++ riskSourceText reason.source ++ lit ": " ++
    sanitiseForMarkdown reason.detail

def checkLine (check : CheckState) : Text :=
  lit "- " ++ check.name ++ lit ": " ++ checkConclusionText check.conclusion

variable [Host]

/-- What `${n}` prints for an issue number. -/
def issueText : ℕ∞ → Text
  | some n => Json.numeral n
  | none => lit "Infinity"

/-- The table at the top. -/
def statusRows (view : PullRequestView) : List (Text × Text) :=
  [(lit "Issue", (view.issue.map fun issue => lit "#" ++ issueText issue).getD (lit "—")),
    (lit "Risk", lit "`" ++ riskText view.risk.risk ++ lit "`"),
    (lit "Review", lit "`" ++ reviewStatusText view.review.status ++ lit "`"),
    (lit "Review attempts", decimal view.state.reviewAttempts ++ lit " of " ++
      decimal view.maxReviewAttempts),
    (lit "Risk gate", gateConclusionText view.outcome.riskGate),
    (lit "Review gate", gateConclusionText view.outcome.reviewGate),
    (lit "Decision", decisionLabel view.outcome.decision)]

/-- The section about findings, when there are any. -/
def findingsSection (findings : List Finding) : List Text :=
  if findings.length > 0 then
    [[], lit "**Findings (" ++ decimal findings.length ++ lit ")**", [],
      lit "| Severity | File | Description | Suggested action |", lit "| --- | --- | --- | --- |",
      join (lit "\n") (findings.map findingRow)]
  else []

def recurrenceSection (recurrence : List RecurringFinding) : List Text :=
  if recurrence.length > 0 then
    [[], lit "**Recurring findings** — already raised in an earlier attempt on this pull request",
      []] ++ recurrence.map recurringLine
  else []

/-- The human-readable half of the sticky comment. -/
def renderPullRequestSummary (view : PullRequestView) : Text :=
  join (lit "\n")
    ([lit "### Autonomous loop — " ++ decisionLabel view.outcome.decision, [],
        table (statusRows view), [], lit "**Why**", []] ++
      view.outcome.reasons.map reasonLine ++
      [[], lit "**Risk classification**", []] ++ view.risk.reasons.map riskReasonLine ++
      [[], lit "**Required checks**", []] ++ view.checks.map checkLine ++
      findingsSection view.review.findings ++ recurrenceSection view.recurrence ++
      [[], lit "**Review summary**", [], lit "> " ++ sanitiseForMarkdown view.review.summary])

/-- The comment that is published: the summary and the state behind it. -/
def stickyComment (view : PullRequestView) : Text :=
  renderPullRequestSummary view ++ lit "\n\n" ++ serialiseLoopState view.state ++ lit "\n"

/-- The texts that are printed as they come, in order. -/
def rawFields (view : PullRequestView) : List Text :=
  (view.issue.map issueText).toList ++ view.checks.map CheckState.name ++
    view.review.findings.filterMap Finding.file ++
    view.recurrence.flatMap fun recurring => recurring.occurrences.map fun occurrence =>
      lit "`" ++ occurrence.headSha.take 12

end Newsdeck.Loop

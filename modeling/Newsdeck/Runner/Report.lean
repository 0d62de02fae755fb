import Newsdeck.Loop.Eligibility
import Newsdeck.Loop.Risk

/-!
# What the runner reports

The outcome of local verification and its text, the text of a review, and the body of a pull request.
-/

namespace Newsdeck.Runner

open Ecma Loop

/-! ### Verification -/

inductive StepOutcome where
  | passed
  | failed
  | notApplicable
  | unavailable
  deriving DecidableEq, Repr

structure StepResult where
  name : Text
  outcome : StepOutcome
  durationMs : ℕ
  output : Text
  deriving DecidableEq, Repr

structure VerificationOutcome where
  ok : Bool
  risk : RiskLevel
  steps : List StepResult
  firstFailure : Option StepResult
  unavailable : List Text
  failed : List Text
  deriving DecidableEq, Repr

/-- `MARK`. -/
def mark : StepOutcome → Text
  | .passed => lit "pass"
  | .failed => lit "FAIL"
  | .notApplicable => lit "n/a "
  | .unavailable => lit "SKIP"

/-- `Math.round(durationMs / 1000)`. -/
def roundSeconds (durationMs : ℕ) : ℕ := (durationMs + 500) / 1000

def stepLine (step : StepResult) : Text :=
  let duration :=
    if step.outcome = .passed ∨ step.outcome = .failed then
      lit " (" ++ decimal (roundSeconds step.durationMs) ++ lit "s)"
    else []
  lit "- " ++ mark step.outcome ++ lit " `" ++ step.name ++ lit "`" ++ duration

def formatVerification (outcome : VerificationOutcome) : Text :=
  join (lit "\n") ([lit "Verification for `" ++ riskText outcome.risk ++ lit "` risk:", []] ++
    outcome.steps.map stepLine ++
    (if outcome.unavailable.length > 0 then
      [[], lit "**Could not run:** " ++ join (lit ", ") outcome.unavailable ++
        lit ". An unrunnable check is not a passing one, so this change cannot merge until the tooling is available."]
    else []) ++
    (match outcome.firstFailure with
      | none => []
      | some failure =>
          [[], lit "<details><summary>" ++ failure.name ++ lit " output</summary>", [], lit "```",
            takeLast 4000 failure.output, lit "```", lit "</details>"]))

/-! ### Reviews -/

def cell (text : Text) : Text :=
  replaceAll (lit "\n") (lit " ") (replaceAll (lit "|") (lit "\\|") text)

def findingRow (finding : Finding) : Text :=
  let place := match finding.file with
    | none => lit "—"
    | some file => file ++ (finding.line.map fun line => lit ":" ++ decimal line).getD []
  lit "| " ++ severityText finding.severity ++ lit " | " ++ place ++ lit " | " ++
    cell finding.description ++ lit " | " ++ cell finding.suggestedAction ++ lit " |"

def renderReview (review : ReviewResult) : Text :=
  join (lit "\n") ([lit "**Status:** `" ++ reviewStatusText review.status ++ lit "`", [],
      review.summary] ++
    (if review.findings.length > 0 then
      [[], lit "| Severity | Where | Finding | Suggested action |", lit "| --- | --- | --- | --- |"] ++
        review.findings.map findingRow
    else []) ++
    [[], lit "_Advisory only. The review that gates this pull request runs in GitHub Actions._"])

/-! ### The pull request -/

def pullRequestBody (issue : IssueSummary) (files : List Text) (verification : VerificationOutcome)
    (review : Option ReviewResult) (risk : RiskAssessment) : Text :=
  join (lit "\n") ([lit "Closes #" ++ decimal issue.number, [], lit "## What changed", [],
      lit "Implemented by the local Claude Code runner. " ++ decimal files.length ++
        lit " file(s) changed.", [],
      lit "## Risk: `" ++ riskText risk.risk ++ lit "`", []] ++
    risk.reasons.map (fun reason => lit "- " ++ reason.detail) ++
    [[], lit "Risk decides how much verification this change had to pass, not whether a person must approve it. Classified under the base branch's policy" ++
        (if risk.reasons.any fun reason => reason.source = .basePolicy then
          lit ", which governs because this pull request proposes a different one"
        else []) ++ lit ".", [],
      lit "## Verification", [], formatVerification verification, [],
      lit "## Independent review", []] ++
    [match review with
      | none => lit "No usable review result. This pull request cannot merge without one."
      | some review => renderReview review] ++
    [[], lit "---", [],
      lit "Produced by an unattended loop. The runner has no merge authority: it enables GitHub's own auto-merge, and GitHub's required checks decide whether this actually lands."])

end Newsdeck.Runner

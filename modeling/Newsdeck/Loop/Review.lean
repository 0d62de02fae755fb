import Newsdeck.Ecma.RegExp
import Newsdeck.Loop.Policy

/-!
# Reviews

The machine-readable review result, the schema that admits it, and what happens to an agent's raw
output before the gate reads it: `parseReviewText` extracts and validates, `mergeReview` puts the
deterministic findings in front, `sanitiseForMarkdown` defuses text before it is published.

Anything that fails validation becomes a `blocked` review.  The texts of the complaints come from
the JSON reader and the schema library; `Complaints` supplies them.
-/

namespace Newsdeck.Loop

open Ecma

/-! ### Findings and results -/

/-- One finding.  `file` and `line` are `none` for `null` and for `undefined` alike: every reader
takes them through `??`. -/
structure Finding where
  severity : Severity
  file : Option Text
  line : Option ℕ
  description : Text
  suggestedAction : Text
  source : Text
  category : Text
  deriving DecidableEq, Repr

inductive ReviewStatus where
  | approve | requestChanges | blocked
  deriving DecidableEq, Repr

structure ReviewResult where
  status : ReviewStatus
  findings : List Finding
  summary : Text
  deriving DecidableEq, Repr

/-- How a status prints. -/
def reviewStatusText : ReviewStatus → Text
  | .approve => lit "approve"
  | .requestChanges => lit "request_changes"
  | .blocked => lit "blocked"

def reviewStatusSchema : Schema ReviewStatus :=
  Schema.enum [(lit "approve", .approve), (lit "request_changes", .requestChanges),
    (lit "blocked", .blocked)]

/-- `z.string().max(n)`. -/
def textUpTo (n : ℕ) : Schema Text := Schema.text fun t => t.length ≤ n

/-- `z.string().min(1).max(n)`. -/
def nonEmptyUpTo (n : ℕ) : Schema Text := Schema.text fun t => t ≠ [] ∧ t.length ≤ n

def findingSchema : Schema Finding := Schema.object fun field => do
  let severity ← field "severity" severitySchema
  let file ← field "file" (Schema.nullish (textUpTo 512))
  let line ← field "line" (Schema.nullish (Schema.nat 1 Schema.maxSafe))
  let description ← field "description" (nonEmptyUpTo 2000)
  let suggestedAction ← field "suggested_action" (nonEmptyUpTo 2000)
  let source ← field "source" (Schema.default (textUpTo 64) (lit "agent"))
  let category ← field "category" (Schema.default (textUpTo 64) (lit "review"))
  some ⟨severity, file, line, description, suggestedAction, source, category⟩

def reviewResultSchema : Schema ReviewResult := Schema.object fun field => do
  let status ← field "status" reviewStatusSchema
  let findings ← field "findings" (Schema.maxItems 200 (Schema.array findingSchema))
  let summary ← field "summary" (nonEmptyUpTo 8000)
  some ⟨status, findings, summary⟩

/-! ### Sanitising -/

/-- `CONTROL_CHARACTERS`. -/
def isControl (c : ℕ) : Bool :=
  c ≤ 8 || c = 11 || c = 12 || (14 ≤ c && c ≤ 31) || c = 127

/-- Remove the control characters that would corrupt a summary or a comment. -/
def sanitiseText (value : Text) : Text := value.filter fun c => !isControl c

/-- Neutralise text before it is embedded in Markdown this loop publishes. -/
def sanitiseForMarkdown (value : Text) : Text :=
  replaceAll (lit "-->") (lit "––>")
    (replaceAll (lit "<!--") (lit "<!––") (replaceAll (lit "`") (lit "'") (sanitiseText value)))

/-! ### Validation -/

/-- The messages the JSON reader and the schema library raise. -/
class Complaints where
  /-- The message of the `SyntaxError` that `JSON.parse` throws on a text. -/
  syntaxError : Text → Text
  /-- One `path: message` for each issue the review schema finds in a value. -/
  reviewIssues : Json → List Text

def blockedResult (summary : Text) (errors : List Text) : ReviewResult where
  status := .blocked
  summary := summary
  findings := errors.map fun error =>
    { severity := .high
      file := none
      line := none
      description := lit "Review agent output was not usable: " ++ error
      suggestedAction := lit "Re-run the review agent. If it keeps emitting an invalid result the loop is blocked and needs a human."
      source := lit "review-validation"
      category := lit "automation" }

/-- The validated result with the control characters of its prose removed. -/
def sanitiseResult (result : ReviewResult) : ReviewResult where
  status := result.status
  summary := sanitiseText result.summary
  findings := result.findings.map fun finding =>
    { finding with
      description := sanitiseText finding.description
      suggestedAction := sanitiseText finding.suggestedAction }

/-- `ParseOutcome`: the result, and the errors when it is not the agent's own. -/
structure ParseOutcome where
  ok : Bool
  errors : List Text
  result : ReviewResult

/-- Validate a review agent's raw output. -/
def parseReviewResult [Complaints] (raw : Json) : ParseOutcome :=
  match reviewResultSchema (some raw) with
  | none =>
      let errors := Complaints.reviewIssues raw
      ⟨false, errors, blockedResult (lit "Review result failed validation.") errors⟩
  | some result => ⟨true, [], sanitiseResult result⟩

/-- `FENCED_JSON`. -/
def fencedJson : Regex ℕ :=
  .cat [.str "```", .opt (.str "json"), .many .space, .str "\n", .group 1 (.lazy .any),
    .str "\n```"]

/-- Extract and validate a review result from an agent's raw text output. -/
def parseReviewText [Complaints] (text : Text) : ParseOutcome :=
  let candidate := (fencedJson.capture 1 text).getD text
  match Json.parse candidate with
  | none =>
      let reason := lit "output was not JSON (" ++ Complaints.syntaxError candidate ++ lit ")"
      ⟨false, [reason], blockedResult (lit "Review agent did not return JSON.") [reason]⟩
  | some raw => parseReviewResult raw

/-! ### Blocking findings -/

/-- Findings at or above the policy's blocking severity. -/
def blockingFindings (findings : List Finding) (blockingSeverity : Severity) : List Finding :=
  findings.filter fun finding => isAtLeastSeverity finding.severity blockingSeverity

/-- Combine deterministic check findings with the agent's review. -/
def mergeReview (agent : ReviewResult) (deterministic : List Finding)
    (blockingSeverity : Severity) : ReviewResult :=
  let findings := deterministic ++ agent.findings
  let blocking := blockingFindings findings blockingSeverity
  let status : ReviewStatus :=
    if agent.status = .blocked then .blocked
    else if blocking.length > 0 ∨ agent.status = .requestChanges then .requestChanges
    else .approve
  ⟨status, findings, agent.summary⟩

theorem mem_blockingFindings {findings : List Finding} {s : Severity} {f : Finding} :
    f ∈ blockingFindings findings s ↔ f ∈ findings ∧ isAtLeastSeverity f.severity s = true := by
  simp [blockingFindings]

/-- A finding at or above one severity is at or above every lower one. -/
theorem isAtLeastSeverity_trans {a b c : Severity} (hab : isAtLeastSeverity a b = true)
    (hbc : isAtLeastSeverity b c = true) : isAtLeastSeverity a c = true := by
  simp only [isAtLeastSeverity, ge_iff_le, decide_eq_true_eq] at *
  omega

end Newsdeck.Loop
